/-
# Rounds of accepting

The BEGINs and ACCEPTs of a leader's current number. A new round starts only
when the whole quorum has accepted the last one, so at any time each member
has at most one BEGIN or ACCEPT in flight or counted, and all of them are for
the version that is being decided.
-/
import Ceph.Mon.Promises

namespace Ceph
namespace Paxos

open List Cluster Out

variable {n lease : ℕ} {s s' : Cluster} {i : ℕ} {m : Mon}

/-- A request or reply of the current round: for the version after
`last_committed`, or for `last_committed` once that is committed. -/
def InRound (m : Mon) (M : MMonPaxos) : Prop :=
  M.lastCommitted + (if m.newValue = [] then 1 else 0) = m.lastCommitted

/-- What is in flight for a leader's round. -/
structure Round (n : ℕ) (s : Cluster) (i : ℕ) (m : Mon) : Prop where
  quorum : IsQuorum n i m.quorum
  idle : m.state ≠ .updating → ∀ a, a ≠ i → inFlight s .begin .accept m.acceptedPn i a = 0
  tally : m.state = .updating → ∀ a, a ≠ i → inFlight s .begin .accept m.acceptedPn i a +
    (if a ∈ m.accepted then 1 else 0) ≤ if a ∈ m.quorum then 1 else 0
  begins : m.state = .updating → ∀ a, a ≠ i → ∀ M ∈ s.net i a, M.op = .begin →
    M.pn = m.acceptedPn → InRound m M
  accepts : m.state = .updating → ∀ a, a ≠ i → ∀ M ∈ s.net a i, M.op = .accept →
    M.pn = m.acceptedPn → InRound m M
  majority : m.state = .updating → (m.newValue = [] ↔ n / 2 < m.accepted.card)

theorem IsQuorum.card_ne_one {q : Finset ℕ} (h : IsQuorum n i q) (hn : 1 < n) : q.card ≠ 1 := by
  have := h.2.2
  omega

theorem Round.of_other (h : Round n s i m)
    (hfl : ∀ a, inFlight s' .begin .accept m.acceptedPn i a ≤ inFlight s .begin .accept m.acceptedPn i a)
    (hb : ∀ a, a ≠ i → ∀ M ∈ s'.net i a, M.op = .begin → M ∈ s.net i a)
    (ha : ∀ a, a ≠ i → ∀ M ∈ s'.net a i, M.op = .accept → M ∈ s.net a i ∨
      ∃ b ∈ s.net i a, b.op = .begin ∧ b.pn = M.pn ∧ b.lastCommitted = M.lastCommitted) :
    Round n s' i m := by
  refine ⟨h.quorum, ?_, ?_, ?_, ?_, h.majority⟩
  · intro hs a hai
    have h1 := h.idle hs a hai
    have h2 := hfl a
    omega
  · intro hs a hai
    have h1 := h.tally hs a hai
    have h2 := hfl a
    omega
  · exact fun hs a hai M hM hop hpn => h.begins hs a hai M (hb a hai M hM hop) hop hpn
  · intro hs a hai M hM hop hpn
    rcases ha a hai M hM hop with hM | ⟨b, hb, hbo, hbpn, hblc⟩
    · exact h.accepts hs a hai M hM hop hpn
    · have := h.begins hs a hai b hb hbo (hbpn.trans hpn)
      unfold InRound at this ⊢
      rw [← hblc]
      exact this

variable {ev : Event} {o : Handled} {s₁ : Cluster} {M : MMonPaxos}

/-- An ACCEPT answers a BEGIN of the same round. -/
theorem accept_of_begin (hm : Move n lease s i ev s₁ o)
    {j : ℕ} (hM : M ∈ sendsTo j o.effs) (hop : M.op = .accept) :
    ∃ b ∈ s.net j i, b.op = .begin ∧ b.pn = M.pn ∧ b.lastCommitted = M.lastCommitted := by
  have hmem := mem_sendsTo.mp hM
  have hnone : (∀ e ∈ o.effs, e.NoReply) →
      ∃ b ∈ s.net j i, b.op = .begin ∧ b.pn = M.pn ∧ b.lastCommitted = M.lastCommitted :=
    fun h => absurd hop (h _ hmem).2
  cases hm with
  | quiet _ hq _ => exact hnone fun e he => (hq e he).plain.noReply
  | alone _ _ _ _ => exact hnone nofun
  | win e q' _ _ => exact hnone (noReply_collect 0 rfl)
  | propose v _ _ _ => exact hnone (noReply_begin v _)
  | last src now c ms hnet hop _ hl => exact hnone (noReply_handleLast hl)
  | accept src now c ms hnet hop _ _ => exact hnone fun e he => (plain_handleAccept src now c _ e he).noReply
  | commit src now c ms hnet hop _ hp => exact hnone fun e he => (plain_handleCommit c hp e he).noReply
  | collect src now c ms hnet hopc _ hp =>
    rcases handleCollect_cases (s.node i).store (s.node i).mon src c hp with h | ⟨_, h⟩ | ⟨_, h⟩
    · rw [h] at hmem
      nomatch hmem
    · rw [h] at hmem
      simp only [emit_effs, mem_cons, not_mem_nil, or_false, reduceCtorEq, false_or,
        Effect.send.injEq] at hmem
      rw [hmem.2] at hop
      cases hop
    · rw [h] at hmem
      simp only [emit_effs, mem_singleton, Effect.send.injEq] at hmem
      rw [hmem.2] at hop
      cases hop
  | begin src now c ms hnet hopc _ _ =>
    rcases handleBegin_cases (s.node i).mon src c with ⟨h, _⟩ | ⟨hpn, hlc, h⟩
    · rw [h] at hmem
      nomatch hmem
    · rw [h] at hmem
      simp only [emit_effs, mem_cons, not_mem_nil, or_false, reduceCtorEq, false_or,
        Effect.send.injEq] at hmem
      obtain ⟨rfl, rfl⟩ := hmem
      exact ⟨c, by rw [hnet]; exact mem_cons_self, hopc, hpn, hlc⟩

/-! ### The leader's own steps -/

/-- Effects that start no round. -/
def Effect.NoBegin : Effect → Prop
  | .send _ m => m.op ≠ .begin
  | _ => True

theorem Effect.Plain.noBegin {e : Effect} (h : e.Plain) : e.NoBegin := by
  cases e with
  | send j m => rcases h with h | h | h <;> simp [Effect.NoBegin, h]
  | _ => trivial

variable {es : List Effect} {ms : List MMonPaxos}

variable {a : ℕ}

theorem mem_net_noBegin (hes : ∀ e ∈ es, e.NoBegin)
    (hM : M ∈ (s.performAll i es).net i a) (hop : M.op = .begin) : M ∈ s.net i a := by
  rw [performAll_net, if_pos rfl] at hM
  rcases mem_append.mp hM with hM | hM
  · exact hM
  · exact absurd hop (hes _ (mem_sendsTo.mp hM))

theorem inFlight_noBegin (hes : ∀ e ∈ es, e.NoBegin) (p : ℕ) (ha : a ≠ i) :
    inFlight (s.performAll i es) .begin .accept p i a = inFlight s .begin .accept p i a := by
  have hzero : (sendsTo a es).countP (isOp .begin p) = 0 := by
    rw [countP_eq_zero]
    intro M hM
    have hnb : M.op ≠ .begin := hes _ (mem_sendsTo.mp hM)
    simp [isOp, hnb]
  rw [inFlight_own es _ _ _ ha, hzero, Nat.add_zero]

/-- Effects and changes of memory that leave the round alone. -/
theorem Round.performAll (h : Round n s i m) (hes : ∀ e ∈ es, e.NoBegin) {m' : Mon}
    (hacc : m'.acceptedPn = m.acceptedPn) (hq : m'.quorum = m.quorum) (hst : m'.state = m.state)
    (hnew : m'.newValue = m.newValue) (haccd : m'.accepted = m.accepted)
    (hlc : m.state = .updating → m'.lastCommitted = m.lastCommitted) :
    Round n (s.performAll i es) i m' := by
  have hin : m.state = .updating → ∀ M, InRound m M → InRound m' M := by
    intro hs M hM
    unfold InRound at hM ⊢
    rw [hnew, hlc hs]
    exact hM
  refine ⟨hq ▸ h.quorum, ?_, ?_, ?_, ?_, ?_⟩
  · intro hs a ha
    rw [hacc, inFlight_noBegin hes _ ha]
    exact h.idle (hst ▸ hs) a ha
  · intro hs a ha
    rw [hacc, hq, haccd, inFlight_noBegin hes _ ha]
    exact h.tally (hst ▸ hs) a ha
  · intro hs a ha M hM hop hpn
    have hs' : m.state = .updating := hst ▸ hs
    exact hin hs' M (h.begins hs' a ha M (mem_net_noBegin hes hM hop) hop (hpn.trans hacc))
  · intro hs a ha M hM hop hpn
    have hs' : m.state = .updating := hst ▸ hs
    rw [performAll_net, if_neg ha] at hM
    exact hin hs' M (h.accepts hs' a ha M hM hop (hpn.trans hacc))
  · intro hs
    rw [hnew, haccd]
    exact h.majority (hst ▸ hs)

theorem round_idle (hq : IsQuorum n i m.quorum) (hst : m.state ≠ .updating)
    (h : ∀ a, a ≠ i → inFlight s .begin .accept m.acceptedPn i a = 0) : Round n s i m :=
  ⟨hq, fun _ => h, fun hs => absurd hs hst, fun hs => absurd hs hst, fun hs => absurd hs hst,
    fun hs => absurd hs hst⟩

theorem Round.received (h : Round n s i m) (src : ℕ) : Round n (s.received src i) i m :=
  h.of_other (fun a => inFlight_mono (received_sublist src i a) (received_sublist src a i))
    (fun a _ _ hM _ => (received_sublist src i a).subset hM)
    fun a _ _ hM _ => .inl ((received_sublist src a i).subset hM)

variable {st : Store}

theorem round_collect (hN : Numbers s) (oldpn : ℕ) (hl : m.role = .leader) (hi : i < 100)
    (hlast : m.lastPn = (s.node i).store.lastPn) (hq : IsQuorum n i m.quorum) :
    Round n (s.performAll i (collect n i st oldpn m).effs) i (collect n i st oldpn m).st := by
  obtain ⟨m', hc, h⟩ := collect_spec n i st m oldpn hl
  rw [h]
  refine round_idle ?_ ?_ fun a ha => ?_
  · rw [emit_st, hc.quorum]; exact hq
  · rw [emit_st, hc.state]; decide
  · have hnb : ∀ e ∈ (emit m' (.putLastPn (pickedPn i oldpn m) :: (others n i m.quorum).map
        fun d => .send d (collectMsg m (pickedPn i oldpn m))) : Handled).effs, e.NoBegin := by
      intro e he
      rcases mem_cons.mp he with rfl | he
      · trivial
      · obtain ⟨d, _, rfl⟩ := List.mem_map.mp he
        simp [Effect.NoBegin, collectMsg]
    rw [inFlight_noBegin hnb _ ha, emit_st, hc.acceptedPn]
    refine inFlight_fresh hN (.inr ⟨rfl, rfl⟩) (pickedPn_mod i hi oldpn m) ?_
    rw [← hlast]
    exact (lt_pickedPn i oldpn m).1

/-- **A round starts.** -/
theorem round_begin (hn : 1 < n) (h : Round n s i m) (hst : m.state = .active) {v : Blob} (hv : v ≠ [])
    (hok : (begin n i v m).ok = true) :
    Round n (s.performAll i (begin n i v m).effs) i (begin n i v m).st := by
  have hidle := h.idle (by rw [hst]; decide)
  rcases begin_cases n i m v with ⟨m', hb⟩ | ⟨h1, _⟩ | ⟨_, _, _, _, _, hb⟩
  · rw [hb] at hok
    cases hok
  · exact absurd h1 (h.quorum.card_ne_one hn)
  rw [hb]
  have hsends : ∀ a, sendsTo a (.putBl (m.lastCommitted + 1) v (some m.acceptedPn) ::
      (others n i m.quorum).map fun p => .send p (beginMsg v m)) =
      if a ∈ others n i m.quorum then [beginMsg v m] else [] := by
    intro a
    rw [sendsTo_putBl, sendsTo_bcast (nodup_others n i _)]
  have hnone : ∀ a, a ≠ i → (∀ M ∈ s.net i a, M.op = .begin → M.pn ≠ m.acceptedPn) ∧
      ∀ M ∈ s.net a i, M.op = .accept → M.pn ≠ m.acceptedPn := by
    intro a ha
    have h0 := hidle a ha
    obtain ⟨h1, h2⟩ := Nat.add_eq_zero_iff.mp h0
    rw [countP_eq_zero] at h1 h2
    refine ⟨fun M hM hop hpn => h1 M hM ?_, fun M hM hop hpn => h2 M hM ?_⟩
    · simp [isOp, hop, hpn]
    · simp [isOp, hop, hpn]
  refine ⟨h.quorum, fun hs => absurd rfl hs, ?_, ?_, ?_, ?_⟩
  · intro _ a ha
    have hai : a ∉ ({i} : Finset ℕ) := by simpa using ha
    show inFlight _ .begin .accept m.acceptedPn i a + (if a ∈ ({i} : Finset ℕ) then 1 else 0) ≤
      if a ∈ m.quorum then 1 else 0
    rw [inFlight_own _ _ _ _ ha, hidle a ha, emit_effs, hsends, if_neg hai]
    by_cases hq : a ∈ m.quorum
    · rw [if_pos hq]
      split_ifs <;> simp [isOp, beginMsg]
    · have hno : a ∉ others n i m.quorum := fun hmem => hq (mem_others.mp hmem).2.1
      rw [if_neg hq, if_neg hno]
      simp
  · intro _ a ha M hM hop hpn
    rw [performAll_net, if_pos rfl, emit_effs, hsends] at hM
    rcases mem_append.mp hM with hM | hM
    · exact absurd hpn ((hnone a ha).1 M hM hop)
    · split_ifs at hM
      · rw [mem_singleton] at hM
        subst hM
        simp [InRound, beginMsg, hv]
      · cases hM
  · intro _ a ha M hM hop hpn
    rw [performAll_net, if_neg ha] at hM
    exact absurd hpn ((hnone a ha).2 M hM hop)
  · intro _
    simp only [emit_st, Finset.card_singleton]
    constructor
    · exact fun h0 => absurd h0 hv
    · intro hlt
      omega

variable {c : MMonPaxos}

/-- **An ACCEPT is counted.** -/
theorem round_countAccept (h : Round n s i m) {src : ℕ} (hnet : s.net src i = c :: ms)
    (hop : c.op = .accept) (hpn : c.pn = m.acceptedPn) (hst : m.state = .updating) (hsrc : src ∉ m.accepted) :
    Round n ((s.received src i).performAll i (countAccept n i src m).effs) i (countAccept n i src m).st ∧
      (countAccept n i src m).st.state = .updating := by
  have hcm : c ∈ s.net src i := hnet ▸ mem_cons_self
  have hcard : (insert src m.accepted).card = m.accepted.card + 1 := Finset.card_insert_of_notMem hsrc
  have hmaj := h.majority hst
  have hnb : ∀ e ∈ (countAccept n i src m).effs, e.NoBegin :=
    fun e he => (plain_countAccept src m e he).noBegin
  -- what is in flight, with the ACCEPT counted and off its link
  have htally : ∀ a, a ≠ i → inFlight ((s.received src i).performAll i (countAccept n i src m).effs)
      .begin .accept m.acceptedPn i a + (if a ∈ insert src m.accepted then 1 else 0) ≤
      if a ∈ m.quorum then 1 else 0 := by
    intro a ha
    have ht := h.tally hst a ha
    rw [inFlight_noBegin hnb _ ha]
    by_cases has : a = src
    · subst has
      have hhead : (s.net a i).countP (isOp .accept m.acceptedPn) =
          ms.countP (isOp .accept m.acceptedPn) + 1 := by
        rw [hnet, countP_cons, if_pos (by simp [isOp, hop, hpn])]
      have hsame : (s.received a i).net i a = s.net i a := received_net_ne fun h => ha h.2
      rw [if_pos (Finset.mem_insert_self a _)]
      unfold inFlight at ht ⊢
      rw [received_net_self hnet, hsame]
      omega
    · have hle : inFlight (s.received src i) .begin .accept m.acceptedPn i a ≤
          inFlight s .begin .accept m.acceptedPn i a :=
        inFlight_mono (received_sublist src i a) (received_sublist src a i)
      have hmem : a ∈ insert src m.accepted ↔ a ∈ m.accepted := by
        rw [Finset.mem_insert]
        exact or_iff_right has
      simp only [hmem]
      omega
  have hbeg : ∀ a, a ≠ i → ∀ M ∈ ((s.received src i).performAll i (countAccept n i src m).effs).net i a,
      M.op = .begin → M.pn = m.acceptedPn → InRound m M := by
    intro a ha M hM hopM hpnM
    have hM := (received_sublist src i a).subset (mem_net_noBegin hnb hM hopM)
    exact h.begins hst a ha M hM hopM hpnM
  have hacc : ∀ a, a ≠ i → ∀ M ∈ ((s.received src i).performAll i (countAccept n i src m).effs).net a i,
      M.op = .accept → M.pn = m.acceptedPn → InRound m M := by
    intro a ha M hM hopM hpnM
    rw [performAll_net, if_neg ha] at hM
    exact h.accepts hst a ha M ((received_sublist src a i).subset hM) hopM hpnM
  -- the round is the same, with one more ACCEPT
  obtain ⟨hquorum, hstate, haccepted, hpns⟩ : (countAccept n i src m).st.quorum = m.quorum ∧
      (countAccept n i src m).st.state = m.state ∧ (countAccept n i src m).st.accepted = insert src m.accepted ∧
      (countAccept n i src m).st.acceptedPn = m.acceptedPn := by
    rcases countAccept_cases n i m src with ⟨-, heq⟩ | ⟨-, heq⟩ <;> rw [heq] <;> exact ⟨rfl, rfl, rfl, rfl⟩
  obtain ⟨hin, hnew⟩ : (∀ M, InRound m M → InRound (countAccept n i src m).st M) ∧
      ((countAccept n i src m).st.newValue = [] ↔ n / 2 < (insert src m.accepted).card) := by
    rcases countAccept_cases n i m src with ⟨hc, heq⟩ | ⟨hc, heq⟩
    · -- the majority is new, so the value was not committed before
      have hnew : m.newValue ≠ [] := by
        intro h0
        have := hmaj.mp h0
        omega
      refine ⟨fun M hM => ?_, ?_⟩
      · unfold InRound at hM ⊢
        rw [heq, emit_st]
        simp only [if_true]
        rw [if_neg hnew] at hM
        omega
      · rw [heq]
        rw [hc]
        exact ⟨fun _ => Nat.lt_succ_self _, fun _ => rfl⟩
    · rw [heq]
      refine ⟨fun M hM => hM, ?_⟩
      show m.newValue = [] ↔ n / 2 < (insert src m.accepted).card
      rw [hmaj]
      omega
  refine ⟨⟨?_, ?_, ?_, ?_, ?_, ?_⟩, hstate.trans hst⟩
  · rw [hquorum]
    exact h.quorum
  · exact fun hs => absurd (hstate.trans hst) hs
  · rw [hquorum, haccepted, hpns]
    exact fun _ => htally
  · rw [hpns]
    exact fun _ a ha M hM hopM hpnM => hin M (hbeg a ha M hM hopM hpnM)
  · rw [hpns]
    exact fun _ a ha M hM hopM hpnM => hin M (hacc a ha M hM hopM hpnM)
  · rw [haccepted]
    exact fun _ => hnew

theorem round_handleAccept (h : Round n s i m) {src now : ℕ} (hnet : s.net src i = c :: ms)
    (hop : c.op = .accept) :
    Round n ((s.received src i).performAll i (handleAccept n i lease src c now m).effs) i
      (handleAccept n i lease src c now m).st := by
  rcases handleAccept_cases n i lease m src c now with ⟨he, hs⟩ | ⟨hpn, _, hst, hsrc, heq⟩
  · rw [he, hs]
    exact h.received src
  obtain ⟨hr, hst'⟩ := round_countAccept h hnet hop hpn hst hsrc
  rw [heq, andThen, if_pos (countAccept_ok n i m src), performAll_append]
  set t := (s.received src i).performAll i (countAccept n i src m).effs with ht
  set m1 := (countAccept n i src m).st with hm1
  rcases finishAccepts_cases n i lease m1 now with ⟨_, hf⟩ | ⟨hall, hq, hs, hcalm⟩
  · rw [hf]
    exact hr
  · have hnb : ∀ e ∈ (finishAccepts n i lease now m1).effs, e.NoBegin :=
      fun e he => (hq e he).plain.noBegin
    have hquo : m1.quorum = (finishAccepts n i lease now m1).st.quorum := hs.quorum
    refine round_idle ?_ ?_ fun a ha => ?_
    · rw [← hquo]; exact hr.quorum
    · rw [← hs.state]
      show State.active ≠ .updating
      decide
    · have ht := hr.tally hst' a ha
      rw [inFlight_noBegin hnb _ ha, hcalm.acceptedPn]
      show inFlight t .begin .accept m1.acceptedPn i a = 0
      rw [hall] at ht
      split_ifs at ht <;> omega

theorem round_finishLasts (hn : 1 < n) (h : Round n s i m) (hst : m.state = .recovering) (now : ℕ)
    (hok : (finishLasts n i lease now m).ok = true) :
    Round n (s.performAll i (finishLasts n i lease now m).effs) i (finishLasts n i lease now m).st := by
  have hidle := h.idle (by rw [hst]; decide)
  rcases finishLasts_cases n i lease m now with ⟨_, hf⟩ | ⟨_, _, hv, hf⟩ | ⟨_, _, hq, hs, hcalm⟩
  · rw [hf]
    exact h
  · rw [hf] at hok ⊢
    have hactive : State.active ≠ .updating := by decide
    exact round_begin hn (round_idle (m := { m with state := .active }) h.quorum hactive hidle) rfl hv hok
  · have hnb : ∀ e ∈ (finishLasts n i lease now m).effs, e.NoBegin :=
      fun e he => (hq e he).plain.noBegin
    have hquo : m.quorum = (finishLasts n i lease now m).st.quorum := hs.quorum
    refine round_idle ?_ ?_ fun a ha => ?_
    · rw [← hquo]; exact h.quorum
    · rw [← hs.state]
      show State.active ≠ .updating
      decide
    · rw [inFlight_noBegin hnb _ ha, hcalm.acceptedPn]
      exact hidle a ha

theorem round_handleLast (hn : 1 < n) (hN : Numbers s) (hL : Local s i m) (h : Round n s i m)
    {src now : ℕ} (hnet : s.net src i = c :: ms)
    (hop : c.op = .last) (hl : m.role = .leader) (hfresh : m.acceptedPn ≤ c.pn)
    (hok : (handleLast n i lease st src c now m).ok = true) :
    Round n ((s.received src i).performAll i (handleLast n i lease st src c now m).effs) i
      (handleLast n i lease st src c now m).st := by
  have hcm : c ∈ s.net src i := hnet ▸ mem_cons_self
  have hplain := plain_shared_learned st src c m
  have hnb : ∀ e ∈ shared st src c m ++ learned c m, e.NoBegin := fun e he => (hplain e he).noBegin
  rcases handleLast_cases n i lease st m src c now hl with ⟨_, heq⟩ | ⟨hle, heq⟩
  · rw [heq, emit_andThen, performAll_append]
    refine round_collect ((hN.received src).performAll (fits_plain hplain)) _ hl (hL.rank hl) ?_ h.quorum
    obtain ⟨hlp, _⟩ := plain_performAll (s := s.received src i) (i := i) hplain
    exact (hL.received src).recalls.lastPn.trans hlp.symm
  · have hpn : c.pn = m.acceptedPn := le_antisymm hle hfresh
    have hrec := (hL.leading hl (h.quorum.card_ne_one hn)).recovering (hN.last_own hcm hop).1 hcm hop hpn
    obtain ⟨hq, ha, _, _, _, hnew, hst, _⟩ := countLast_kept src c (withLearned c m)
    rw [heq, emit_andThen] at hok ⊢
    rw [performAll_append]
    refine round_finishLasts hn ?_ (hst.trans hrec) now hok
    refine round_idle (by rw [hq]; exact h.quorum) ?_ fun a hai => ?_
    · rw [hst]
      show m.state ≠ .updating
      rw [hrec]
      decide
    · rw [inFlight_noBegin hnb _ hai, ha]
      exact (h.received src).idle (by rw [hrec]; decide) a hai

/-- **A leader's own step.** -/
theorem round_move (hn : 1 < n) (hN : Numbers s) (hL : Local s i (s.node i).mon)
    (hr : (s.node i).mon.role = .leader → Round n s i (s.node i).mon)
    (hm : Move n lease s i ev s₁ o) (hc : FreshLasts s ev) (hok : o.ok = true)
    (hlead : o.st.role = .leader) : Round n (s₁.performAll i o.effs) i o.st := by
  have hne : Role.peon ≠ .leader := by decide
  cases hm with
  | quiet hs hq hcalm =>
    have hsame := hcalm.lead hlead
    have h := hr (hsame.role.trans hlead)
    have hnb : ∀ e ∈ o.effs, e.NoBegin := fun e he => (hq e he).plain.noBegin
    have h₁ : Round n s₁ i (s.node i).mon := by
      rcases hs with rfl | ⟨src, rfl⟩
      · exact h
      · exact h.received src
    exact h₁.performAll hnb hcalm.acceptedPn hsame.quorum.symm hsame.state.symm hsame.newValue.symm
      hsame.accepted.symm fun _ => hcalm.lastCommitted
  | alone e q hq h1 => exact absurd h1 (hq.card_ne_one hn)
  | win e q hq h1 => exact round_collect hN 0 rfl (hc h1) hL.recalls.lastPn hq
  | propose v hv hl hst =>
    have h := hr hl
    have hactive : (s.node i).mon.state ≠ .updating := by rw [hst]; decide
    have hidle : Round n s i (cancelEvents (s.node i).mon) :=
      round_idle h.quorum hactive (h.idle hactive)
    exact round_begin hn hidle hst hv hok
  | collect src now c ms hnet hop _ hp =>
    rcases handleCollect_cases (s.node i).store (s.node i).mon src c hp with h | ⟨_, h⟩ | ⟨_, h⟩ <;>
      rw [h] at hlead <;> exact absurd (hp.symm.trans hlead) hne
  | last src now c ms hnet hop he hl =>
    exact round_handleLast hn hN hL (hr hl) hnet hop hl (hc c (by rw [hnet]; rfl) hop hl he) hok
  | begin src now c ms hnet hop _ _ =>
    rcases handleBegin_cases (s.node i).mon src c with ⟨h, h'⟩ | ⟨hpn, _, h⟩
    · rw [h']  at hlead
      rw [h, h']
      exact (hr hlead).received src
    · rw [h] at hlead
      have hl : (s.node i).mon.role = .leader := hlead
      have hcm : c ∈ s.net src i := hnet ▸ mem_cons_self
      obtain ⟨hsrc, hown⟩ := hN.begin_own hcm hop
      have hmine := (hL.leading hl ((hr hl).quorum.card_ne_one hn)).own.1
      rw [← hpn, hown.1] at hmine
      exact absurd hmine.symm hsrc
  | accept src now c ms hnet hop _ _ =>
    have hk := (handleAccept_kept n i lease (s.node i).mon src c now).1
    exact round_handleAccept (hr (hk.role.symm.trans hlead)) hnet hop
  | commit src now c ms hnet hop _ hp =>
    obtain ⟨ws, _, _, hst, _⟩ := handleCommit_spec (s.node i).mon c hp
    rw [hst] at hlead
    exact absurd (hp.symm.trans hlead) hne

/-! ### Runs -/

/-- The invariant. -/
structure InRounds (n : ℕ) (s : Cluster) : Prop where
  sound : Sound s
  round : ∀ i, (s.node i).up = true → (s.node i).mon.role = .leader → Round n s i (s.node i).mon

/-- **Every step keeps it.** -/
theorem rounds_step (hn : 1 < n) {a : Act} (h : InRounds n s) (hc : NoStaleLast s a)
    (hs : step n lease s a = some s') : InRounds n s' := by
  refine ⟨promises_step h.sound hc hs, ?_⟩
  rcases step_cases hs with ⟨ev, i, s₁, o, es, m, up, ha, ⟨_, hup⟩, hm, hes, hfull, rfl⟩ |
    ⟨i, rfl, _, _, rfl⟩ | ⟨i, j, k, rfl, rfl⟩
  · have hev : FreshLasts s ev := by
      rcases ha with rfl | ⟨k, rfl⟩
      · exact hc
      · exact hc
    have hL := h.sound.local_up i hup
    intro j hj hlead
    by_cases hji : j = i
    · subst hji
      rw [become_node] at hj hlead ⊢
      obtain ⟨rfl, rfl, hok⟩ := hfull hj
      have hr := round_move hn h.sound.numbers hL (h.round j hup) hm hev hok hlead
      exact ⟨hr.quorum, hr.idle, hr.tally, hr.begins, hr.accepts, hr.majority⟩
    · have hnode : ((s₁.performAll i es).become i m up).node j = s.node j := by
        rw [become_node_ne i _ hji, performAll_node_ne i s₁ es hji, hm.same.1]
      rw [hnode] at hj hlead ⊢
      have hown := ((h.sound.local_up j hj).leading hlead
        ((h.round j hj hlead).quorum.card_ne_one hn)).own.1
      refine (h.round j hj hlead).of_other ?_ ?_ ?_
      · exact fun a => inFlight_le (.inr ⟨rfl, rfl⟩) h.sound.numbers hL.recalls hm hes hji hown a
      · intro a _ M hM _
        rw [become_net, performAll_net, if_neg hji] at hM
        exact (hm.net_sublist j a).1.subset hM
      · intro a haj M hM hop
        rw [become_net, performAll_net] at hM
        split_ifs at hM with hai
        · subst hai
          rcases mem_append.mp hM with hM | hM
          · exact .inl ((hm.net_sublist a j).1.subset hM)
          · have hM' : M ∈ sendsTo j o.effs := (hes.sublist.filterMap _).subset hM
            exact .inr (accept_of_begin hm hM' hop)
        · exact .inl ((hm.net_sublist a j).1.subset hM)
  · intro j hj hlead
    by_cases hji : j = i
    · subst hji
      rw [restart_node] at hlead
      cases hlead
    · rw [restart_node_ne i s hji] at hj hlead ⊢
      have hr := h.round j hj hlead
      exact ⟨hr.quorum, hr.idle, hr.tally, hr.begins, hr.accepts, hr.majority⟩
  · have hsub := s.net.take_sublist i j k
    intro a ha hlead
    exact (h.round a ha hlead).of_other (fun b => inFlight_mono (hsub a b) (hsub b a))
      (fun b _ _ hM _ => (hsub a b).subset hM) fun b _ _ hM _ => .inl ((hsub b a).subset hM)

theorem inRounds_fresh : InRounds n fresh := ⟨sound_fresh, by simp [fresh]⟩

end Paxos
end Ceph
