/-
# The pending map is of the version to propose

`encode_pending` asserts that the pending incremental is of the version after
the last one committed. The map is built when Paxos is active and its epoch
is then the next one; it goes stale if versions are committed under it, and
`_active` does not build it anew. In every run in which no version is
committed while there is a pending map, the assertion holds.
-/
import Ceph.Mon.Service

namespace Ceph
open List Out
open Option hiding max_eq_left max_eq_right
namespace Paxos

/-! ### The last version committed, in memory and in the store -/

/-- The `last_committed` of a store that had `v`, once `es` are performed. -/
def committedAfter (v : ℕ) (es : List Effect) : ℕ :=
  es.foldl (fun v e => match e with | .putLastCommitted w => w | _ => v) v

theorem performAll_lastCommitted (es : List Effect) : ∀ st : Store,
    (st.performAll es).lastCommitted = committedAfter st.lastCommitted es := by
  induction es with
  | nil => exact fun _ => rfl
  | cons e es ih =>
    intro st
    have h := ih (st.perform e)
    cases e <;> exact h

theorem committedAfter_append (v : ℕ) (es es' : List Effect) :
    committedAfter v (es ++ es') = committedAfter (committedAfter v es) es' :=
  foldl_append

theorem committedAfter_of_forall {es : List Effect} (h : ∀ e ∈ es, ∀ w, e ≠ .putLastCommitted w) :
    ∀ v, committedAfter v es = v := by
  induction es with
  | nil => exact fun _ => rfl
  | cons e es ih =>
    intro v
    have hrest := ih (fun e' he' => h e' (mem_cons_of_mem e he')) v
    cases e with
    | putLastCommitted w => exact absurd rfl (h _ mem_cons_self w)
    | _ => exact hrest

/-- The store follows the memory. `still`: nothing may be committed. -/
structure Abreast (still : Prop) (m : Mon) (o : Handled) : Prop where
  role : o.st.role = m.role ∨ o.st.role = .starting
  quorum : o.st.quorum = m.quorum
  le : m.lastCommitted ≤ committedAfter m.lastCommitted o.effs
  eq : o.ok = true → o.st.lastCommitted = committedAfter m.lastCommitted o.effs
  stays : still → committedAfter m.lastCommitted o.effs = m.lastCommitted

section abreast

variable {still : Prop} {m : Mon}

variable {o : Handled}

theorem abreast_of_forall (hr : o.st.role = m.role ∨ o.st.role = .starting)
    (hq : o.st.quorum = m.quorum) (hlc : o.st.lastCommitted = m.lastCommitted)
    (h : ∀ e ∈ o.effs, ∀ w, e ≠ .putLastCommitted w) : Abreast still m o := by
  have hsame := committedAfter_of_forall h m.lastCommitted
  exact ⟨hr, hq, hsame.ge, fun _ => hlc.trans hsame.symm, fun _ => hsame⟩

variable {m' : Mon}

theorem abreast_ret (hr : m'.role = m.role) (hq : m'.quorum = m.quorum)
    (hlc : m'.lastCommitted = m.lastCommitted) : Abreast still m (.ret m') :=
  abreast_of_forall (.inl hr) hq hlc (by simp [ret])

theorem abreast_check (b : Bool) (hr : m'.role = m.role) (hq : m'.quorum = m.quorum)
    (hlc : m'.lastCommitted = m.lastCommitted) : Abreast still m (.check m' b) :=
  abreast_of_forall (.inl hr) hq hlc (by simp)

theorem Abreast.of_eq (h : Abreast still m' o) (hr : m'.role = m.role)
    (hq : m'.quorum = m.quorum) (hlc : m'.lastCommitted = m.lastCommitted) : Abreast still m o := by
  obtain ⟨h1, h2, h3, h4, h5⟩ := h
  rw [hr] at h1
  rw [hlc] at h3 h4 h5
  exact ⟨h1, h2.trans hq, h3, h4, h5⟩

variable {f : Mon → Handled}

theorem Abreast.andThen (h : Abreast still m o)
    (hf : o.ok = true → Abreast still o.st (f o.st)) : Abreast still m (o.andThen f) := by
  unfold Out.andThen
  split_ifs with hok
  swap
  · exact h
  have hg := hf hok
  have heq := h.eq hok
  refine ⟨?_, hg.quorum.trans h.quorum, ?_, fun hok' => ?_, fun hs => ?_⟩
  · rcases hg.role with hr | hr
    · rw [hr]
      exact h.role
    · exact .inr hr
  · rw [committedAfter_append, ← heq]
    calc m.lastCommitted ≤ o.st.lastCommitted := heq ▸ h.le
      _ ≤ _ := hg.le
  · rw [committedAfter_append, ← heq]
    exact hg.eq hok'
  · rw [committedAfter_append, ← heq, hg.stays hs, heq, h.stays hs]

theorem abreast_check_andThen {b : Bool} (hf : Abreast still m (f m)) : Abreast still m ((check m b).andThen f) :=
  (abreast_check b rfl rfl rfl).andThen fun _ => hf

variable (n me lease : ℕ)

theorem abreast_collect (st : Store) (oldpn : ℕ) (m : Mon) : Abreast still m (collect n me st oldpn m) := by
  by_cases hl : m.role = .leader
  · obtain ⟨m', hc, heq⟩ := collect_spec n me st m oldpn hl
    rw [heq]
    refine abreast_of_forall (.inl hc.role) hc.quorum hc.lastCommitted ?_
    simp
  · unfold collect
    rw [check_andThen, if_neg (by simpa using hl)]
    exact abreast_check false rfl rfl rfl

theorem abreast_handleCollect (st : Store) (src : ℕ) (c : MMonPaxos) (m : Mon) :
    Abreast still m (handleCollect st src c m) := by
  refine abreast_check_andThen ?_
  refine Abreast.andThen (abreast_check _ (by rfl) (by rfl) (by rfl)) fun _ => ?_
  split_ifs
  · exact abreast_of_forall (.inl rfl) rfl rfl (by simp)
  · exact abreast_of_forall (.inl rfl) rfl rfl (by simp)

theorem abreast_extendLease (now : ℕ) (m : Mon) : Abreast still m (extendLease n me lease now m) := by
  refine abreast_check_andThen ?_
  refine abreast_check_andThen ?_
  exact abreast_of_forall (.inl rfl) rfl rfl (by simp)

theorem abreast_handleLease (src : ℕ) (l : MMonPaxos) (now : ℕ) (m : Mon) :
    Abreast still m (handleLease src l now m) := by
  unfold handleLease
  dsimp only
  split_ifs
  · exact abreast_ret rfl rfl rfl
  · exact abreast_of_forall (.inl rfl) rfl rfl (by simp)
  · exact abreast_of_forall (.inl rfl) rfl rfl (by simp)

theorem abreast_handleLeaseAck (src : ℕ) (m : Mon) : Abreast still m (handleLeaseAck src m) := by
  unfold handleLeaseAck
  dsimp only
  split_ifs <;> exact abreast_ret rfl rfl rfl

theorem abreast_wakeAll (m : Mon) : Abreast still m (.emit m wakeAll) :=
  abreast_of_forall (.inl rfl) rfl rfl (by simp [wakeAll])

theorem abreast_commit (m : Mon) (h : ¬ still) : Abreast still m (commit n me m) := by
  have hput : committedAfter m.lastCommitted (commit n me m).effs = m.lastCommitted + 1 := by
    have hsend : ∀ e ∈ (commit n me m).effs.tail, ∀ w, e ≠ .putLastCommitted w := by
      simp [commit]
    exact committedAfter_of_forall hsend (m.lastCommitted + 1)
  exact ⟨.inl rfl, rfl, by omega, fun _ => hput.symm, fun hs => absurd hs h⟩

/-- `begin` commits at once only when alone. -/
theorem abreast_begin (v : Blob) (m : Mon) (h : still → m.quorum.card ≠ 1) :
    Abreast still m (begin n me v m) := by
  refine abreast_check_andThen ?_
  refine abreast_check_andThen ?_
  refine Abreast.andThen (abreast_check _ (by rfl) (by rfl) (by rfl)) fun _ => ?_
  refine abreast_check_andThen ?_
  refine Abreast.andThen (abreast_of_forall (.inl rfl) rfl rfl (by simp)) fun _ => ?_
  split_ifs with h1
  · refine (abreast_commit n me _ fun hs => h hs h1).andThen fun _ => ?_
    exact (abreast_wakeAll _).of_eq rfl rfl rfl
  · exact abreast_of_forall (.inl rfl) rfl rfl (by simp)

theorem abreast_handleBegin (src : ℕ) (b : MMonPaxos) (m : Mon) : Abreast still m (handleBegin src b m) := by
  unfold handleBegin
  split_ifs
  · exact abreast_ret rfl rfl rfl
  refine abreast_check_andThen ?_
  refine abreast_check_andThen ?_
  exact abreast_of_forall (.inl rfl) rfl rfl (by simp)

theorem abreast_finishAccepts (now : ℕ) (m : Mon) : Abreast still m (finishAccepts n me lease now m) := by
  unfold finishAccepts
  split_ifs
  · refine Abreast.andThen ((abreast_extendLease n me lease now _).of_eq rfl rfl rfl) fun _ => ?_
    exact abreast_wakeAll _
  · exact abreast_ret rfl rfl rfl

theorem abreast_handleAccept (src : ℕ) (a : MMonPaxos) (now : ℕ) (m : Mon)
    (h : still → ¬ (a.pn = m.acceptedPn ∧ m.state = .updating ∧ src ∉ m.accepted ∧
      (insert src m.accepted).card = n / 2 + 1)) :
    Abreast still m (handleAccept n me lease src a now m) := by
  rcases handleAccept_cases n me lease m src a now with ⟨heff, hst⟩ | ⟨hpn, _, hup, hsrc, heq⟩
  · refine abreast_of_forall (.inl ?_) ?_ ?_ ?_ <;> simp [heff, hst]
  rw [heq]
  refine Abreast.andThen ?_ fun _ => abreast_finishAccepts n me lease now _
  unfold countAccept
  dsimp only
  split_ifs with hcard
  · exact (abreast_commit n me _ fun hs => h hs ⟨hpn, hup, hsrc, hcard⟩).of_eq rfl rfl rfl
  · exact abreast_ret rfl rfl rfl

theorem abreast_handleCommit (c : MMonPaxos) (m : Mon) (h : still → m.role ≠ .peon) :
    Abreast still m (handleCommit c m) := by
  by_cases hp : m.role = .peon
  swap
  · unfold handleCommit
    rw [check_andThen, if_neg (by simpa using hp)]
    exact abreast_check false rfl rfl rfl
  obtain ⟨ws, -, -, hst, heff⟩ := handleCommit_spec m c hp
  have hnone : committedAfter m.lastCommitted (ws.map fun p => .putBl p.1 p.2 none) = m.lastCommitted := by
    refine committedAfter_of_forall (fun e he w => ?_) _
    obtain ⟨p, -, rfl⟩ := List.mem_map.mp he
    simp
  rcases heff with ⟨heff, hok⟩ | heff
  · refine ⟨.inl (by rw [hst]), by rw [hst], ?_, fun h => ?_, fun hs => absurd hp (h hs)⟩
    · rw [heff]
      exact hnone.ge
    · rw [hok] at h
      cases h
  · have hput : committedAfter m.lastCommitted (handleCommit c m).effs = m.lastCommitted + ws.length := by
      rw [heff, committedAfter_append]
      rfl
    refine ⟨.inl (by rw [hst]), by rw [hst], ?_, fun _ => ?_, fun hs => absurd hp (h hs)⟩
    · omega
    · rw [hput, hst]

theorem abreast_finishLasts (now : ℕ) (m : Mon) (h : still → m.quorum.card ≠ 1) :
    Abreast still m (finishLasts n me lease now m) := by
  unfold finishLasts
  dsimp only
  split_ifs
  · exact (abreast_begin n me _ { m with state := .active } h).of_eq rfl rfl rfl
  · refine Abreast.andThen ((abreast_extendLease n me lease now _).of_eq rfl rfl rfl) fun _ => ?_
    exact abreast_of_forall (.inl rfl) rfl rfl (by simp)
  · exact abreast_ret rfl rfl rfl

theorem committedAfter_learned (st : Store) (src : ℕ) (last : MMonPaxos) (m : Mon) :
    committedAfter m.lastCommitted (shared st src last m ++ learned last m) =
      max m.lastCommitted last.lastCommitted := by
  have hshared : committedAfter m.lastCommitted (shared st src last m) = m.lastCommitted := by
    refine committedAfter_of_forall ?_ _
    unfold shared
    split_ifs <;> simp
  rw [committedAfter_append, hshared]
  unfold learned
  split_ifs with hlt
  · rw [committedAfter_append]
    exact (max_eq_right (le_of_lt hlt)).symm
  · exact (max_eq_left (not_lt.mp hlt)).symm

theorem abreast_handleLast (st : Store) (src : ℕ) (last : MMonPaxos) (now : ℕ) (m : Mon)
    (h : still → m.role = .leader → m.quorum.card ≠ 1 ∧ last.lastCommitted ≤ m.lastCommitted) :
    Abreast still m (handleLast n me lease st src last now m) := by
  by_cases hl : m.role = .leader
  swap
  · unfold handleLast
    rw [if_pos hl]
    exact abreast_ret rfl rfl rfl
  have hput := committedAfter_learned st src last m
  -- what the LAST brings, whatever the leader then does with it
  have hlearn : ∀ m' : Mon, m'.role = m.role → m'.quorum = m.quorum →
      m'.lastCommitted = max m.lastCommitted last.lastCommitted →
      Abreast still m (.emit m' (shared st src last m ++ learned last m)) := by
    intro m' hr hq hlc
    refine ⟨.inl hr, hq, ?_, fun _ => hlc.trans hput.symm, fun hs => ?_⟩
    · exact le_of_le_of_eq (le_max_left _ _) hput.symm
    · exact hput.trans (max_eq_left (h hs hl).2)
  rcases handleLast_cases n me lease st m src last now hl with ⟨_, heq⟩ | ⟨_, heq⟩
  · rw [heq]
    exact (hlearn (withLearned last m) rfl rfl rfl).andThen fun _ => abreast_collect n me _ last.pn _
  · rw [heq]
    have hkept : (countLast src last (withLearned last m)).role = m.role ∧
        (countLast src last (withLearned last m)).quorum = m.quorum ∧
        (countLast src last (withLearned last m)).lastCommitted = max m.lastCommitted last.lastCommitted := by
      unfold countLast
      dsimp only
      split_ifs <;> exact ⟨rfl, rfl, rfl⟩
    obtain ⟨hr, hq, hlc⟩ := hkept
    refine (hlearn _ hr hq hlc).andThen fun _ => abreast_finishLasts n me lease now _ fun hs => ?_
    rw [emit_st, hq]
    exact (h hs hl).1

theorem abreast_callElection (m : Mon) : Abreast still m (callElection n m) := by
  unfold callElection
  split_ifs
  · exact abreast_ret rfl rfl rfl
  · exact abreast_of_forall (.inr rfl) rfl rfl (by simp)

theorem abreast_leaderInit (st : Store) (m : Mon) : Abreast still m (leaderInit n me st m) := by
  unfold leaderInit
  split_ifs
  · exact abreast_ret rfl rfl rfl
  · exact (abreast_collect n me st 0 _).of_eq rfl rfl rfl

theorem abreast_peonInit (m : Mon) : Abreast still m (peonInit m) :=
  abreast_of_forall (.inl rfl) rfl rfl (by simp [peonInit])

theorem abreast_proposeNewValue (v : Blob) (m : Mon) (h : ¬ still) :
    Abreast still m (proposeNewValue n me v m) := by
  refine abreast_check_andThen ?_
  exact (abreast_begin n me v (cancelEvents m) fun hs => absurd hs h).of_eq rfl rfl rfl

end abreast

/-- The message makes a leader commit: a LAST that brings newer versions, or the
ACCEPT that completes a majority. -/
def Advances (n src : ℕ) (msg : MMonPaxos) (m : Mon) : Prop :=
  msg.epoch = m.monEpoch ∧ m.role = .leader ∧
    (msg.op = .last ∧ m.lastCommitted < msg.lastCommitted ∨
      msg.op = .accept ∧ msg.pn = m.acceptedPn ∧ m.state = .updating ∧ src ∉ m.accepted ∧
        (insert src m.accepted).card = n / 2 + 1)

instance (n src : ℕ) (msg : MMonPaxos) (m : Mon) : Decidable (Advances n src msg m) :=
  inferInstanceAs (Decidable (_ ∧ _))

/-- **What a message can commit.** -/
theorem abreast_dispatch {still : Prop} {m : Mon} (n me lease : ℕ) (st : Store) {src : ℕ} {msg : MMonPaxos}
    (now : ℕ) (hadv : still → ¬ Advances n src msg m) (hpeon : still → m.role ≠ .peon)
    (hlast : m.role = .leader → msg.epoch = m.monEpoch → msg.op = .last → m.quorum.card ≠ 1) :
    Abreast still m (dispatch n me lease st src msg now m) := by
  unfold dispatch
  by_cases hgt : msg.epoch > m.monEpoch
  · -- a newer epoch: an election is called, and the message is dropped unless it is alone
    rw [if_pos hgt]
    refine (abreast_callElection n m).andThen fun _ => ?_
    have hep : (callElection n m).st.monEpoch = m.monEpoch := by
      unfold callElection
      split_ifs <;> rfl
    rw [if_pos (by omega)]
    exact abreast_ret rfl rfl rfl
  rw [if_neg hgt, ret_andThen]
  by_cases hep : msg.epoch = m.monEpoch
  swap
  · rw [if_pos hep]
    exact abreast_ret rfl rfl rfl
  rw [if_neg (not_not.mpr hep)]
  unfold paxosDispatch
  by_cases hst : m.role = .starting
  · rw [if_pos hst]
    exact abreast_ret rfl rfl rfl
  rw [if_neg hst]
  refine abreast_check_andThen ?_
  have hlead : still → m.role = .leader := by
    intro hs
    cases hr : m.role <;> simp_all
  cases hop : msg.op with
  | collect => exact abreast_handleCollect st src msg m
  | last =>
    refine abreast_handleLast n me lease st src msg now m fun hs hl => ⟨hlast hl hep hop, ?_⟩
    by_contra hlt
    exact hadv hs ⟨hep, hl, .inl ⟨hop, not_le.mp hlt⟩⟩
  | begin => exact abreast_handleBegin src msg m
  | accept =>
    refine abreast_handleAccept n me lease src msg now m fun hs hc => ?_
    exact hadv hs ⟨hep, hlead hs, .inr ⟨hop, hc⟩⟩
  | commit => exact abreast_handleCommit msg m hpeon
  | lease => exact abreast_handleLease src msg now m
  | leaseAck => exact abreast_handleLeaseAck src m

end Paxos

namespace Service

open Paxos

variable {μ : Type} {n me lease : ℕ} {mkfs : Bool} {incEpoch : Blob → ℕ}

/-- No version is committed under a pending map. -/
def Undisturbed (n : ℕ) (s : Svc μ) : Event μ → Prop
  | .deliver src msg _ => s.havePending = true → ¬ Advances n src msg s.mon
  | _ => True

instance (n : ℕ) (s : Svc μ) : (ev : Event μ) → Decidable (Undisturbed n s ev)
  | .deliver _ _ _ => inferInstanceAs (Decidable (_ → _))
  | .win _ _ | .lose _ _ | .callElection | .leaseRenew _ | .request _ _ | .proposalTimer _ | .update _
  | .job _ | .restart => isTrue trivial

/-! ### What is kept between the pieces of a handler -/

/-- What holds also when the monitor is down. -/
structure Lasting (s : Svc μ) : Prop where
  full : s.lastFull ≤ s.store.lastCommitted
  fresh : ∀ p ∈ s.encoded, p.1 = p.2 + 1

/-- The state of a running monitor. -/
structure Good (me : ℕ) (s : Svc μ) : Prop extends Lasting s where
  pending : s.havePending = true → s.pendingEpoch = s.mon.lastCommitted + 1
  store : s.mon.lastCommitted = s.store.lastCommitted
  peon : s.mon.role = .peon → s.havePending = true → Job.electionFinished ∈ s.agenda
  member : s.mon.role = .leader → me ∈ s.mon.quorum

/-- A pending map is encoded only as the next version; the monitor is as it
should be, or has died. -/
structure Sound (me : ℕ) (o : Result μ) : Prop where
  fresh : ∀ p ∈ o.effs, p.1 = p.2 + 1
  lasting : Lasting o.st
  good : o.ok = true → Good me o.st

variable {s : Svc μ}

theorem sound_ret (h : Good me s) : Sound me (.ret s) := ⟨by simp [ret], h.toLasting, fun _ => h⟩

variable {o : Result μ} {f : Svc μ → Result μ}

theorem Sound.andThen (h : Sound me o)
    (hf : o.ok = true → Sound me (f o.st)) : Sound me (o.andThen f) := by
  unfold Out.andThen
  split_ifs with hok
  · refine ⟨fun p hp => ?_, (hf hok).lasting, (hf hok).good⟩
    rcases mem_append.mp hp with hp | hp
    · exact h.fresh p hp
    · exact (hf hok).fresh p hp
  · exact h

theorem sound_check_andThen {b : Bool} (h : Good me s)
    (hf : b = true → Sound me (f s)) : Sound me ((check s b).andThen f) := by
  refine Sound.andThen ⟨by simp, h.toLasting, fun _ => h⟩ fun hb => ?_
  exact hf hb

variable {s' : Svc μ}

theorem Good.of_eq (h : Good me s) (hm : s'.mon = s.mon) (hs : s'.store = s.store)
    (hp : s'.havePending = s.havePending) (he : s'.pendingEpoch = s.pendingEpoch)
    (hf : s'.lastFull = s.lastFull) (hc : s'.encoded = s.encoded) (ha : ∀ j ∈ s.agenda, j ∈ s'.agenda) :
    Good me s' := by
  refine ⟨⟨?_, ?_⟩, fun hp' => ?_, ?_, fun hr hp' => ?_, fun hr => ?_⟩
  · rw [hf, hs]
    exact h.full
  · rw [hc]
    exact h.fresh
  · rw [he, hm]
    exact h.pending (hp ▸ hp')
  · rw [hm, hs]
    exact h.store
  · exact ha _ (h.peon (hm ▸ hr) (hp ▸ hp'))
  · rw [hm]
    exact h.member (hm ▸ hr)

/-- A Paxos handler, under a pending map only if it commits nothing. -/
theorem sound_paxos {o : Handled} (h : Good me s)
    (ho : Abreast (s.havePending = true) s.mon o) : Sound me (paxos o s) := by
  have hst : (s.store.performAll o.effs).lastCommitted = committedAfter s.mon.lastCommitted o.effs := by
    rw [performAll_lastCommitted, h.store]
  have hfull : s.lastFull ≤ (s.store.performAll o.effs).lastCommitted :=
    calc s.lastFull ≤ s.store.lastCommitted := h.full
      _ = s.mon.lastCommitted := h.store.symm
      _ ≤ committedAfter s.mon.lastCommitted o.effs := ho.le
      _ = _ := hst.symm
  refine ⟨by simp [paxos], ⟨hfull, h.fresh⟩, fun hok => ?_⟩
  have heq : o.st.lastCommitted = committedAfter s.mon.lastCommitted o.effs := ho.eq hok
  refine ⟨⟨hfull, h.fresh⟩, fun hp => ?_, heq.trans hst.symm, fun hr hp => ?_, fun hr => ?_⟩
  · show s.pendingEpoch = o.st.lastCommitted + 1
    rw [heq, ho.stays hp]
    exact h.pending hp
  · have hpeon : s.mon.role = .peon := by
      rcases ho.role with hrole | hrole
      · exact hrole.symm.trans hr
      · rw [show o.st.role = .peon from hr] at hrole
        cases hrole
    exact mem_append_right _ (h.peon hpeon hp)
  · have hlead : s.mon.role = .leader := by
      rcases ho.role with hrole | hrole
      · exact hrole.symm.trans hr
      · rw [show o.st.role = .leader from hr] at hrole
        cases hrole
    show me ∈ o.st.quorum
    rw [ho.quorum]
    exact h.member hlead

/-! ### The pieces of the service -/

variable (incEpoch) in
theorem applyIncrementals_spec (now k : ℕ) : ∀ s : Svc μ,
    (applyIncrementals incEpoch now k s).effs = [] ∧
      ∃ e, (applyIncrementals incEpoch now k s).st = { s with osdmapEpoch := e } ∧
        ((applyIncrementals incEpoch now k s).ok = true → e = s.osdmapEpoch + k) := by
  induction k with
  | zero => exact fun s => ⟨rfl, s.osdmapEpoch, rfl, fun _ => rfl⟩
  | succ k ih =>
    intro s
    unfold applyIncrementals
    simp only [check_andThen]
    split_ifs
    · obtain ⟨heff, e, hst, he⟩ := ih { s with osdmapEpoch := s.osdmapEpoch + 1 }
      refine ⟨heff, e, hst, fun hok => ?_⟩
      have := he hok
      dsimp only at this
      omega
    · exact ⟨rfl, s.osdmapEpoch, rfl, nofun⟩
    · exact ⟨rfl, s.osdmapEpoch, rfl, nofun⟩

variable (incEpoch) in
/-- The map is brought up to the last version committed. -/
theorem updateFromPaxos_spec (now : ℕ) (h : Good me s) :
    (updateFromPaxos incEpoch now s).effs = [] ∧
      ∃ e f, (updateFromPaxos incEpoch now s).st = { s with osdmapEpoch := e, lastFull := f } ∧
        f ≤ s.store.lastCommitted ∧
        ((updateFromPaxos incEpoch now s).ok = true → e = s.mon.lastCommitted) := by
  unfold updateFromPaxos
  simp only [check_andThen, decide_eq_true_eq]
  split_ifs with hact heq hle
  · exact ⟨rfl, s.osdmapEpoch, s.lastFull, rfl, h.full, fun _ => heq.symm⟩
  · have hload : ∃ e0, loadFull s = { s with osdmapEpoch := e0 } ∧ e0 ≤ s.mon.lastCommitted := by
      unfold loadFull
      split_ifs
      · exact ⟨s.lastFull, rfl, h.store ▸ h.full⟩
      · exact ⟨s.osdmapEpoch, rfl, hle⟩
    obtain ⟨e0, hload, he0⟩ := hload
    rw [hload]
    obtain ⟨heff, e, hst, he⟩ := applyIncrementals_spec incEpoch now
      (s.mon.lastCommitted - e0) { s with osdmapEpoch := e0 }
    unfold Out.andThen
    split_ifs with hok
    · have hend : e = s.mon.lastCommitted := by
        have := he hok
        dsimp only at this
        omega
      refine ⟨by rw [heff]; rfl, e, e, by rw [hst]; rfl, ?_, fun _ => hend⟩
      rw [hend, h.store]
    · refine ⟨heff, e, s.lastFull, hst, h.full, fun hok' => absurd hok' hok⟩
  · exact ⟨rfl, s.osdmapEpoch, s.lastFull, rfl, h.full, nofun⟩
  · exact ⟨rfl, s.osdmapEpoch, s.lastFull, rfl, h.full, nofun⟩

/-- What follows an `update_from_paxos` has the last version committed. -/
theorem sound_updateFromPaxos_andThen (now : ℕ) (h : Good me s)
    (hf : ∀ s' : Svc μ, Good me s' → s'.osdmapEpoch = s'.mon.lastCommitted → s'.agenda = s.agenda →
      Sound me (f s')) :
    Sound me ((updateFromPaxos incEpoch now s).andThen f) := by
  obtain ⟨heff, e, lf, hst, hlf, he⟩ := updateFromPaxos_spec incEpoch now h
  have hgood : Good me (updateFromPaxos incEpoch now s).st := by
    rw [hst]
    exact ⟨⟨hlf, h.fresh⟩, h.pending, h.store, h.peon, h.member⟩
  refine Sound.andThen ⟨by simp [heff], hgood.toLasting, fun _ => hgood⟩ fun hok => ?_
  refine hf _ hgood ?_ ?_
  · rw [hst]
    exact he hok
  · rw [hst]

theorem good_createPending (h : Good me s) (he : s.osdmapEpoch = s.mon.lastCommitted)
    (hl : s.mon.role = .leader) : Good me (createPending s) := by
  refine ⟨⟨h.full, h.fresh⟩, fun _ => ?_, h.store, fun hr => ?_, h.member⟩
  · show s.osdmapEpoch + 1 = s.mon.lastCommitted + 1
    rw [he]
  · rw [show s.mon.role = .peon from hr] at hl
    cases hl

/-- **A proposal.** -/
theorem sound_proposePending (bl : Blob) (h : Good me s) : Sound me (proposePending n me bl s) := by
  refine sound_check_andThen h fun hp => ?_
  have hnext : s.pendingEpoch = s.mon.lastCommitted + 1 := h.pending (by simpa using hp)
  have hgood : Good me { s with proposalTimer := false } := h.of_eq rfl rfl rfl rfl rfl rfl fun _ hj => hj
  have hencode : Sound me (encodePending { s with proposalTimer := false }) := by
    refine Sound.andThen ⟨fun p hp => ?_, hgood.toLasting, fun _ => hgood⟩ fun _ => ?_
    · cases mem_singleton.mp hp
      exact hnext
    · exact ⟨by simp, hgood.toLasting, fun _ => hgood⟩
  refine hencode.andThen fun hok => ?_
  refine sound_paxos ?_ (abreast_proposeNewValue n me bl _ (by simp))
  have hg := hencode.good hok
  exact ⟨⟨hg.full, hg.fresh⟩, nofun, hg.store, fun _ => nofun, hg.member⟩

theorem sound_active (c : Choice μ) (h : Good me s) : Sound me (active n me mkfs incEpoch c s) := by
  refine sound_check_andThen h fun _ => ?_
  refine sound_updateFromPaxos_andThen c.now h fun s' hg he _ => ?_
  by_cases hl : s'.mon.role = .leader
  swap
  · rw [if_neg hl]
    exact sound_ret hg
  rw [if_pos hl, ret_andThen]
  have hpend : Good me (if s'.havePending then s' else createPending s') := by
    split_ifs
    · exact hg
    · exact good_createPending hg he hl
  generalize (if s'.havePending then s' else createPending s') = s'' at hpend
  split_ifs
  · exact sound_proposePending c.bl hpend
  · exact sound_ret hpend

theorem sound_committed (c : Choice μ) (h : Good me s) : Sound me (committed incEpoch c s) := by
  refine sound_updateFromPaxos_andThen c.now h fun s' hg he _ => ?_
  split_ifs with hl
  · exact sound_check_andThen hg fun _ => sound_ret (good_createPending hg he hl)
  · exact sound_ret hg

/-- The pending map of a monitor that has lost goes here; until here, the agenda
vouches for it. -/
theorem sound_electionFinished (c : Choice μ)
    (h : Good me { s with agenda := .electionFinished :: s.agenda }) :
    Sound me (electionFinished n me mkfs incEpoch c s) := by
  unfold electionFinished
  rw [ret_andThen]
  have hgood : Good me (if s.havePending = true ∧ s.mon.role ≠ .leader then { s with havePending := false } else s) := by
    split_ifs with hd
    · exact ⟨⟨h.full, h.fresh⟩, nofun, h.store, fun _ => nofun, h.member⟩
    · refine ⟨⟨h.full, h.fresh⟩, h.pending, h.store, fun hr hp => absurd ⟨hp, ?_⟩ hd, h.member⟩
      rw [hr]
      simp
  generalize (if s.havePending = true ∧ s.mon.role ≠ .leader then { s with havePending := false } else s) = s'
    at hgood
  split_ifs
  · exact sound_active c hgood
  · exact sound_ret (hgood.of_eq rfl rfl rfl rfl rfl rfl fun _ hj => hj)

theorem sound_dispatch (m : μ) (c : Choice μ) (h : Good me s) :
    Sound me (dispatch n me incEpoch m c s) := by
  unfold dispatch
  by_cases hread : isReadable c.now s.mon = false
  · rw [if_pos hread]
    exact sound_ret (h.of_eq rfl rfl rfl rfl rfl rfl fun _ hj => hj)
  rw [if_neg hread]
  refine sound_updateFromPaxos_andThen c.now h fun s' hg _ _ => ?_
  have hw : ∀ w t, Good me { s' with waiting := w, proposalTimer := t } := fun w t => hg.of_eq rfl rfl rfl rfl rfl rfl fun _ hj => hj
  split_ifs
  · exact sound_ret hg
  · exact sound_ret hg
  · exact sound_ret (hw _ _)
  · exact sound_ret (hw _ _)
  · cases c.propose with
    | never => exact sound_ret (hw _ _)
    | now => exact sound_proposePending c.bl (hw _ _)
    | later => exact sound_ret (hw _ _)

/-- **One entry of the agenda.** -/
theorem sound_runJob (c : Choice μ) {j : Job μ} {js : List (Job μ)} (hj : s.agenda = j :: js)
    (h : Good me s) : Sound me (runJob n me mkfs incEpoch c { s with agenda := js } j) := by
  -- what is left vouches for the pending map, unless the entry was to discard it
  have hrest : j ≠ .electionFinished → Good me { s with agenda := js } := by
    intro hne
    refine ⟨⟨h.full, h.fresh⟩, h.pending, h.store, fun hr hp => ?_, h.member⟩
    have hmem := h.peon hr hp
    rw [hj] at hmem
    exact (mem_cons.mp hmem).resolve_left fun heq => hne heq.symm
  cases j with
  | finishContexts w ok =>
    refine sound_ret ((hrest nofun).of_eq rfl rfl rfl rfl rfl rfl fun j hj => ?_)
    exact mem_append_right _ hj
  | electionFinished =>
    refine sound_electionFinished c (h.of_eq rfl rfl rfl rfl rfl rfl fun j' hj' => ?_)
    rw [hj] at hj'
    exact hj'
  | finish x ok =>
    have hg := hrest nofun
    cases x with
    | active =>
      cases ok with
      | true => exact sound_active c hg
      | false => exact sound_ret hg
    | commit =>
      cases ok with
      | true => exact sound_committed c hg
      | false => exact sound_ret hg
    | retry m => exact sound_dispatch m c hg
    | reply => exact sound_ret hg

/-! ### Runs -/

/-- What holds in every state reached. -/
structure Inv (me : ℕ) (s : Svc μ) : Prop where
  lasting : Lasting s
  good : s.up = true → Good me s

theorem inv_settle (h : Sound me o) : Inv me (settle o) := by
  have hfresh : ∀ p ∈ (settle o).encoded, p.1 = p.2 + 1 := by
    intro p hp
    rcases mem_append.mp hp with hp | hp
    · exact h.fresh p hp
    · exact h.lasting.fresh p hp
  refine ⟨⟨h.lasting.full, hfresh⟩, fun hup => ?_⟩
  have hg := h.good hup
  exact ⟨⟨h.lasting.full, hfresh⟩, hg.pending, hg.store, hg.peon, hg.member⟩

theorem inv_idle (h : Inv me s) (hi : idle s o = some s')
    (ho : Good me s → s.agenda = [] → Sound me o) : Inv me s' := by
  unfold idle at hi
  split_ifs at hi with hup
  cases hi
  exact inv_settle (ho (h.good hup.1) hup.2)

theorem inv_started {st : Store} {lastFull : ℕ} {encoded : List (ℕ × ℕ)} (hf : lastFull ≤ st.lastCommitted)
    (he : ∀ p ∈ encoded, p.1 = p.2 + 1) : Inv me (started st lastFull encoded : Svc μ) :=
  ⟨⟨hf, he⟩, fun _ => ⟨⟨hf, he⟩, nofun, rfl, nofun, nofun⟩⟩

/-- An election leaves the pending map to `election_finished`. -/
theorem good_elected (h : Good me s) {m : Mon} (hlc : m.lastCommitted = s.mon.lastCommitted)
    (hq : m.role = .leader → me ∈ m.quorum) : Good me { s with mon := m, agenda := [.electionFinished] } := by
  refine ⟨⟨h.full, h.fresh⟩, fun hp => ?_, hlc.trans h.store, fun _ _ => mem_singleton.mpr rfl, hq⟩
  rw [show (_ : Mon).lastCommitted = _ from hlc]
  exact h.pending hp

/-- **Every step keeps it.** -/
theorem inv_step {ev : Event μ} (h : Inv me s) (hok : Undisturbed n s ev)
    (hs : step n me lease mkfs incEpoch s ev = some s') : Inv me s' := by
  cases ev with
  | win e q =>
    obtain ⟨hq, hs⟩ := ite_none_right_eq_some.mp hs
    refine inv_idle h hs fun hg _ => ?_
    exact sound_paxos (s := { s with
        mon := { s.mon with role := .leader, leader := me, monEpoch := e, quorum := q }
        agenda := [.electionFinished] })
      (good_elected hg rfl fun _ => hq.1) (abreast_leaderInit n me s.store _)
  | lose e l =>
    refine inv_idle h hs fun hg _ => ?_
    exact sound_paxos (s := { s with
        mon := { s.mon with role := .peon, monEpoch := e, leader := l }
        agenda := [.electionFinished] })
      (good_elected hg rfl nofun) (abreast_peonInit _)
  | deliver src msg now =>
    obtain ⟨hans, hs⟩ := ite_none_right_eq_some.mp hs
    refine inv_idle h hs fun hg hag => ?_
    refine sound_paxos hg (abreast_dispatch n me lease s.store now hok (fun hp hr => ?_) fun hl hep hop => ?_)
    · have := hg.peon hr hp
      rw [hag] at this
      cases this
    · -- the quorum has this monitor and the one that answers
      obtain ⟨hsrc, hne⟩ := hans hl hep hop
      exact (Finset.one_lt_card.mpr ⟨src, hsrc, me, hg.member hl, hne⟩).ne'
  | callElection =>
    exact inv_idle h hs fun hg _ => sound_paxos hg (abreast_callElection n s.mon)
  | leaseRenew now =>
    refine inv_idle h hs fun hg _ => sound_paxos hg ?_
    exact (abreast_extendLease n me lease now _).of_eq rfl rfl rfl
  | request m c => exact inv_idle h hs fun hg _ => sound_dispatch m c hg
  | proposalTimer c =>
    obtain ⟨-, hs⟩ := ite_none_right_eq_some.mp hs
    refine inv_idle h hs fun hg _ => sound_proposePending c.bl ?_
    exact hg.of_eq rfl rfl rfl rfl rfl rfl fun _ hj => hj
  | update c => exact inv_idle h hs fun hg _ => sound_proposePending c.bl hg
  | job c =>
    unfold step at hs
    cases hup : s.up with
    | false => simp [hup] at hs
    | true =>
      cases hag : s.agenda with
      | nil => simp [hup, hag] at hs
      | cons j js =>
        simp only [hup, hag, Option.some.injEq] at hs
        subst hs
        have hsound : Sound me (runJob n me mkfs incEpoch c { s with agenda := js } j) :=
          sound_runJob c hag (h.good hup)
        rw [hup] at hsound
        exact inv_settle hsound
  | restart =>
    cases hs
    exact inv_started h.lasting.full h.lasting.fresh

/-- **The pending map is fresh.** In a run in which no version is committed under
a pending map, every pending map that is encoded is of the version after the
last committed. -/
theorem pending_fresh (n me lease : ℕ) (mkfs : Bool) (incEpoch : Blob → ℕ) {st : Store} {lastFull : ℕ}
    (hfull : lastFull ≤ st.lastCommitted) {s : Svc μ}
    (hr : Run.Reach (step n me lease mkfs incEpoch) (Undisturbed n) (started st lastFull []) s) :
    ∀ p ∈ s.encoded, p.1 = p.2 + 1 := by
  have hinv : Inv me s := by
    refine hr.inv (Inv me) (inv_started hfull (by simp)) fun s ev s' h hok hs => ?_
    exact inv_step h hok hs
  exact hinv.lasting.fresh

/-! ### A monitor that is cut off -/

/-- The epoch in the first byte. -/
def firstByte (b : Blob) : ℕ := (b.headD 0).toNat

def lastFrom (src epoch pn lastCommitted : ℕ) (values : List (ℕ × Blob)) : Event Unit :=
  .deliver src { op := .last, epoch := epoch, pn := pn, lastCommitted := lastCommitted, values := values } 0

def acceptFrom (src epoch pn lastCommitted : ℕ) : Event Unit :=
  .deliver src { op := .accept, epoch := epoch, pn := pn, lastCommitted := lastCommitted } 0

/-- `k` entries of the agenda. -/
def jobs (k : ℕ) : List (Event Unit) := List.replicate k (.job { now := 0, bl := [1] })

/-- A new cluster: monitor 0 leads, proposes the initial map, and commits it. -/
def firstMap : List (Event Unit) :=
  [.win 2 {0, 1, 2}] ++ jobs 1 ++ [lastFrom 1 2 100 0 [], lastFrom 2 2 100 0 []] ++ jobs 4 ++
    [acceptFrom 1 2 100 0, acceptFrom 2 2 100 0] ++ jobs 5

/-- Monitors 1 and 2 commit version 2 among themselves, under number 201; monitor
0 then wins again. -/
def rejoin : List (Event Unit) :=
  [.callElection] ++ jobs 1 ++ [.win 6 {0, 1, 2}] ++ jobs 1 ++
    [lastFrom 1 6 201 2 [(2, [2])], lastFrom 2 6 201 2 [(2, [2])], lastFrom 1 6 300 2 []] ++ jobs 4

/-- A request that is proposed at once. -/
def update : Event Unit := .request () { now := 0, prepared := true, propose := .now, bl := [2] }

/-- The map that follows the initial one is fresh. -/
theorem pending_fresh_first :
    ∃ s : Svc Unit, s.encoded = [(2, 1), (1, 0)] ∧ ∀ p ∈ s.encoded, p.1 = p.2 + 1 := by
  have hrun : ((Run.exec (step 3 0 5 true firstByte) (Undisturbed 3) (firstMap ++ [update])
      (started .mkfs 0 [])).map fun s => s.encoded) = some [(2, 1), (1, 0)] := by
    decide +kernel
  obtain ⟨s, hs, henc⟩ := map_eq_some_iff.mp hrun
  exact ⟨s, henc, pending_fresh 3 0 5 true firstByte (le_refl 0) (Run.reach_of_exec hs)⟩

/-- Monitor 0 encodes its old pending map, of version 2, when 2 is committed. -/
theorem pending_stale :
    ¬ ∀ s : Svc Unit, Run.Reach (step 3 0 5 true firstByte) Run.anyAct (started .mkfs 0 []) s →
      ∀ p ∈ s.encoded, p.1 = p.2 + 1 := by
  intro h
  have hrun : ((Run.exec (step 3 0 5 true firstByte) Run.anyAct (firstMap ++ rejoin ++ [update])
      (started .mkfs 0 [])).map fun s : Svc Unit => s.encoded) = some [(2, 2), (1, 0)] := by
    decide +kernel
  obtain ⟨s, hs, henc⟩ := map_eq_some_iff.mp hrun
  have hfresh := h s (Run.reach_of_exec hs) (2, 2) (by rw [henc]; simp)
  simp at hfresh

end Service
end Ceph
