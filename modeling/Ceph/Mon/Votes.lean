/-
# Votes, and what the messages say of them

The blobs a monitor accepts are its votes in `Ceph.Lib.Ballots`: the version
is the slot, the proposal number the ballot, and the number held is the
larger of the `last_pn` and `accepted_pn` it stored. `Durable` is what the
stores, the votes and every message ever sent keep saying, whatever crashes;
`Allowed` is the condition under which one effect keeps it so.
-/
import Ceph.Lib.Ballots
import Ceph.Mon.Rounds

namespace Ceph
namespace Paxos

open List Function Cluster

variable {n lease : ℕ} {s s' : Cluster} {i : ℕ}

/-- `a` accepted `w` as version `V` under number `c`. -/
def Vote (s : Cluster) (a V c : ℕ) (w : Blob) : Prop := (a, .putBl V w (some c)) ∈ s.log

/-- The number `a` holds, whatever happens to it. -/
def held (s : Cluster) (a : ℕ) : ℕ := max (s.node a).store.lastPn (s.node a).store.acceptedPn

def Cluster.ballots (s : Cluster) : Ballots ℕ Blob := ⟨Vote s, held s⟩

/-- A majority of the `n` monitors. -/
def Majority (n : ℕ) (Q : Finset ℕ) : Prop := Q ⊆ Finset.range n ∧ n < 2 * Q.card

theorem majority_meet {Q Q' : Finset ℕ} (h : Majority n Q) (h' : Majority n Q') : ∃ a ∈ Q, a ∈ Q' := by
  have hne : (Q ∩ Q').Nonempty := by
    refine Finset.inter_nonempty_of_card_lt_card_add_card h.1 h'.1 ?_
    rw [Finset.card_range]
    have h1 := h.2
    have h2 := h'.2
    omega
  obtain ⟨a, ha⟩ := hne
  exact ⟨a, Finset.mem_inter.mp ha⟩

/-- `w` is decided as version `V`. -/
abbrev Chosen (n : ℕ) (s : Cluster) (V : ℕ) (w : Blob) : Prop := s.ballots.Chosen (Majority n) V w

/-- A proposal of `w` under `c` can do no harm. -/
abbrev Safe (n : ℕ) (s : Cluster) (V c : ℕ) (w : Blob) : Prop := s.ballots.Safe (Majority n) V c w

/-- Nothing was decided, or will be, as version `V` under a number below `c`. -/
abbrev Free (n : ℕ) (s : Cluster) (V c : ℕ) : Prop := s.ballots.Free (Majority n) V c

/-- What a LAST from `a` to `j` says: `a` holds its number; it brings what `j`
lacks; and it reports the highest vote of `a` for the next version. -/
structure LastOk (n : ℕ) (s : Cluster) (a j : ℕ) (m : MMonPaxos) : Prop where
  promise : m.pn ≤ held s a
  news : ∀ v, (s.node j).store.lastCommitted < v → v ≤ m.lastCommitted → Chosen n s v (m.value v)
  votes : ∀ V c w, Vote s a V c w → c < m.pn → V ≤ m.lastCommitted + 1 ∧
    (V = m.lastCommitted + 1 → c ≤ m.uncommittedPn)
  report : m.uncommittedPn ≠ 0 →
    Vote s a (m.lastCommitted + 1) m.uncommittedPn (m.value (m.lastCommitted + 1))

/-- What a message from `a` to `j` says. -/
def MsgOk (n : ℕ) (s : Cluster) (a j : ℕ) (m : MMonPaxos) : Prop :=
  match m.op with
  | .collect => m.lastCommitted ≤ (s.node a).store.lastCommitted
  | .last => LastOk n s a j m
  | .begin => Vote s a (m.lastCommitted + 1) m.pn (m.value (m.lastCommitted + 1))
  | .accept => ∃ w, Vote s a (m.lastCommitted + 1) m.pn w
  | .commit => ∀ p ∈ m.values, Chosen n s p.1 p.2
  | _ => True

/-- What the stores, the votes and the messages keep saying. The votes under
`c` follow those of the monitor that picked `c`. -/
structure Durable (n : ℕ) (s : Cluster) : Prop where
  sent : ∀ {a b m}, m ∈ s.net a b → (a, .send b m) ∈ s.log
  vote : ∀ {a V c w}, Vote s a V c w → w ≠ [] ∧ 0 < c ∧ c ≤ held s a ∧ 0 < V ∧
    V ≤ (s.node a).store.lastCommitted + 1 ∧ ((s.node a).store.bl V).isSome ∧ Vote s (c % 100) V c w
  unique : ∀ {V c w w'}, Vote s (c % 100) V c w → Vote s (c % 100) V c w' → w = w'
  safe : ∀ {V c w}, Vote s (c % 100) V c w → Safe n s V c w ∧ ∀ V', V < V' → Free n s V' c
  under : ∀ {a V u}, (s.node a).store.under V = some u → ∃ b, (s.node a).store.bl V = some b ∧
    Vote s a V u b ∧ ∀ c w, Vote s a V c w → c ≤ u
  committed : ∀ {a v}, 0 < v → v ≤ (s.node a).store.lastCommitted →
    ∃ b, (s.node a).store.bl v = some b ∧ Chosen n s v b
  zero : ∀ a, (s.node a).store.bl 0 = none
  msg : ∀ {a j m}, (a, .send j m) ∈ s.log → MsgOk n s a j m

/-- **One decided blob a version.** -/
theorem Durable.chosen_unique (h : Durable n s) {V : ℕ} {w w' : Blob} (hw : Chosen n s V w)
    (hw' : Chosen n s V w') : w = w' := by
  have howner : ∀ {a V c w}, s.ballots.vote a V c w → Vote s (c % 100) V c w :=
    fun hv => (h.vote hv).2.2.2.2.2.2
  refine Ballots.chosen_unique (fun _ _ => majority_meet) ?_ ?_ hw hw'
  · exact fun hv => (h.safe (howner hv)).1
  · exact fun hv hv' => h.unique (howner hv) (howner hv')

/-- The condition under which an effect of `i` keeps `Durable`. -/
def Allowed (n i : ℕ) (s : Cluster) : Effect → Prop
  | .putLastPn p => (s.node i).store.lastPn ≤ p
  | .putAcceptedPn p => (s.node i).store.acceptedPn ≤ p
  | .putLastCommitted v => (s.node i).store.lastCommitted ≤ v ∧
      ∀ u, (s.node i).store.lastCommitted < u → u ≤ v →
        ∃ b, (s.node i).store.bl u = some b ∧ Chosen n s u b
  | .putBl V b none => (s.node i).store.lastCommitted < V ∧ Chosen n s V b
  | .putBl V b (some c) => V = (s.node i).store.lastCommitted + 1 ∧ b ≠ [] ∧ 0 < c ∧ held s i = c ∧
      (c % 100 ≠ i → Vote s (c % 100) V c b) ∧
      (c % 100 = i → (∀ w, ¬ Vote s i V c w) ∧ Safe n s V c b ∧ ∀ V', V < V' → Free n s V' c)
  | .send j m => MsgOk n s i j m
  | .finishContexts _ _ => True

variable {a V c : ℕ} {e : Effect}

/-! ### One effect -/

theorem vote_perform {w : Blob} :
    Vote (s.perform i e) a V c w ↔ Vote s a V c w ∨ (a = i ∧ e = .putBl V w (some c)) := by
  unfold Vote
  rw [perform_log, mem_cons, Prod.mk.injEq]
  constructor
  · rintro (⟨rfl, rfl⟩ | h)
    · exact .inr ⟨rfl, rfl⟩
    · exact .inl h
  · rintro (h | ⟨rfl, rfl⟩)
    · exact .inr h
    · exact .inl ⟨rfl, rfl⟩

theorem Vote.perform {w : Blob} (h : Vote s a V c w) (e : Effect) :
    Vote (s.perform i e) a V c w := vote_perform.mpr (.inl h)

theorem lastCommitted_perform_le (he : Allowed n i s e) (a : ℕ) :
    (s.node a).store.lastCommitted ≤ ((s.perform i e).node a).store.lastCommitted := by
  by_cases ha : a = i
  · subst ha
    rw [perform_store]
    cases e with
    | putLastCommitted v => exact he.1
    | _ => exact le_rfl
  · rw [perform_node_ne i s ha]

theorem held_perform_le (he : Allowed n i s e) (a : ℕ) : held s a ≤ held (s.perform i e) a := by
  unfold held
  by_cases ha : a = i
  · subst ha
    rw [perform_store]
    cases e with
    | putLastPn p => exact max_le_max_right _ he
    | putAcceptedPn p => exact max_le_max_left _ he
    | _ => exact le_rfl
  · rw [perform_node_ne i s ha]

/-- **The votes grow.** -/
theorem grows_perform (he : Allowed n i s e) : s.ballots.Grows (s.perform i e).ballots := by
  refine ⟨held_perform_le he, fun hv => hv.perform e, ?_⟩
  intro a V c w hv
  rcases vote_perform.mp hv with hv | ⟨rfl, rfl⟩
  · exact .inl hv
  · exact .inr he.2.2.2.1.le

/-- How a cluster changes while others act: the votes grow, and nothing
recorded or committed is taken back. -/
structure Ahead (s s' : Cluster) : Prop where
  grows : s.ballots.Grows s'.ballots
  lastCommitted : ∀ a, (s.node a).store.lastCommitted ≤ (s'.node a).store.lastCommitted
  log : ∀ x ∈ s.log, x ∈ s'.log

theorem Ahead.refl (s : Cluster) : Ahead s s := ⟨.refl _, fun _ => le_rfl, fun _ h => h⟩

theorem Ahead.trans {s'' : Cluster} (h : Ahead s s') (h' : Ahead s' s'') : Ahead s s'' :=
  ⟨h.grows.trans h'.grows, fun a => (h.lastCommitted a).trans (h'.lastCommitted a),
    fun x hx => h'.log x (h.log x hx)⟩

theorem ahead_perform (he : Allowed n i s e) : Ahead s (s.perform i e) :=
  ⟨grows_perform he, lastCommitted_perform_le he, fun _ hx => mem_cons_of_mem _ hx⟩

theorem Ahead.vote (h : Ahead s s') {w : Blob} (hv : Vote s a V c w) : Vote s' a V c w :=
  h.grows.kept hv

theorem Ahead.vote_of_lt (h : Ahead s s') {w : Blob} (hv : Vote s' a V c w)
    (hc : c < held s a) : Vote s a V c w := (h.grows.vote_iff hc).mp hv

/-- **What was said stays true.** -/
theorem MsgOk.mono {a j : ℕ} {m : MMonPaxos} (hm : MsgOk n s a j m) (h : Ahead s s') :
    MsgOk n s' a j m := by
  unfold MsgOk at hm ⊢
  cases hop : m.op with
  | collect =>
    rw [hop] at hm
    exact le_trans hm (h.lastCommitted a)
  | last =>
    rw [hop] at hm
    refine ⟨hm.promise.trans (h.grows.held a), ?_, ?_, fun hu => h.vote (hm.report hu)⟩
    · intro v hv hle
      exact (hm.news v (lt_of_le_of_lt (h.lastCommitted j) hv) hle).grows h.grows
    · exact fun V c w hv hc => hm.votes V c w (h.vote_of_lt hv (hc.trans_le hm.promise)) hc
  | begin =>
    rw [hop] at hm
    exact h.vote hm
  | accept =>
    rw [hop] at hm
    obtain ⟨w, hw⟩ := hm
    exact ⟨w, h.vote hw⟩
  | commit =>
    rw [hop] at hm
    exact fun p hp => (hm p hp).grows h.grows
  | lease => trivial
  | leaseAck => trivial

theorem bl_perform_isSome {a V : ℕ} (h : ((s.node a).store.bl V).isSome) :
    (((s.perform i e).node a).store.bl V).isSome := by
  by_cases ha : a = i
  · subst ha
    rw [perform_store]
    cases e with
    | putBl v b u =>
      show (Function.update (s.node a).store.bl v (some b) V).isSome
      by_cases hV : V = v
      · subst hV; rw [update_self]; rfl
      · rw [update_of_ne hV]; exact h
    | _ => exact h
  · rw [perform_node_ne i s ha]; exact h

theorem bl_perform_committed (he : Allowed n i s e) {a v : ℕ}
    (hv : v ≤ (s.node a).store.lastCommitted) :
    ((s.perform i e).node a).store.bl v = (s.node a).store.bl v := by
  by_cases ha : a = i
  · subst ha
    rw [perform_store]
    cases e with
    | putBl V b u =>
      have hlt : v < V := by
        cases u with
        | none => exact lt_of_le_of_lt hv he.1
        | some c =>
          have := he.1
          omega
      exact update_of_ne hlt.ne _ _
    | _ => rfl
  · rw [perform_node_ne i s ha]

/-- **One effect.** -/
theorem Durable.perform (h : Durable n s) (he : Allowed n i s e) : Durable n (s.perform i e) := by
  have hah := ahead_perform he
  refine ⟨?_, ?_, ?_, ?_, ?_, ?_, ?_, ?_⟩
  · intro a b m hm
    rcases mem_perform_net.mp hm with hm | ⟨rfl, rfl⟩
    · exact mem_cons_of_mem _ (h.sent hm)
    · exact mem_cons_self
  · intro a V c w hv
    rcases vote_perform.mp hv with hv | ⟨rfl, rfl⟩
    · obtain ⟨h1, h2, h3, h4, h5, h6, h7⟩ := h.vote hv
      refine ⟨h1, h2, h3.trans (hah.grows.held a), h4, ?_, bl_perform_isSome h6, hah.vote h7⟩
      exact h5.trans (Nat.succ_le_succ (hah.lastCommitted a))
    · obtain ⟨hV, hb, hc, hheld, hother, hown⟩ := he
      refine ⟨hb, hc, ?_, by omega, ?_, ?_, ?_⟩
      · exact hheld.ge.trans (hah.grows.held a)
      · rw [perform_store]
        exact hV.le
      · rw [perform_store]
        show (Function.update (s.node a).store.bl V (some w) V).isSome
        rw [update_self]
        rfl
      · by_cases hca : c % 100 = a
        · rw [hca]
          exact vote_perform.mpr (.inr ⟨rfl, rfl⟩)
        · exact (hother hca).perform _
  · intro V c w w' hv hv'
    rcases vote_perform.mp hv with hold | ⟨hi, rfl⟩
    · rcases vote_perform.mp hv' with hold' | ⟨hi, rfl⟩
      · exact h.unique hold hold'
      · exact absurd (hi ▸ hold) ((he.2.2.2.2.2 hi).1 w)
    · rcases vote_perform.mp hv' with hold' | ⟨_, heq⟩
      · exact absurd (hi ▸ hold') ((he.2.2.2.2.2 hi).1 w')
      · cases heq
        rfl
  · intro V c w hv
    rcases vote_perform.mp hv with hv | ⟨hi, rfl⟩
    · obtain ⟨h1, h2⟩ := h.safe hv
      exact ⟨h1.grows hah.grows, fun V' hV' => (h2 V' hV').grows hah.grows⟩
    · obtain ⟨_, h1, h2⟩ := he.2.2.2.2.2 hi
      exact ⟨h1.grows hah.grows, fun V' hV' => (h2 V' hV').grows hah.grows⟩
  · intro a V u hu
    by_cases ha : a = i
    swap
    · rw [perform_node_ne i s ha] at hu ⊢
      obtain ⟨b, h1, h2, h3⟩ := h.under hu
      refine ⟨b, h1, h2.perform e, fun c w hv => ?_⟩
      rcases vote_perform.mp hv with hv | ⟨hai, _⟩
      · exact h3 c w hv
      · exact absurd hai ha
    subst ha
    rw [perform_store] at hu ⊢
    cases e with
    | putBl V' b u' =>
      by_cases hV : V = V'
      · subst hV
        have hu' : u' = some u := by
          simpa [Store.perform] using hu
        subst hu'
        refine ⟨b, update_self .., vote_perform.mpr (.inr ⟨rfl, rfl⟩), fun c w hv => ?_⟩
        rcases vote_perform.mp hv with hv | ⟨_, heq⟩
        · have := (h.vote hv).2.2.1
          exact this.trans he.2.2.2.1.le
        · cases heq
          exact le_rfl
      · have hu' : (s.node a).store.under V = some u := by
          rw [← hu]
          exact (update_of_ne hV ..).symm
        obtain ⟨b0, h1, h2, h3⟩ := h.under hu'
        refine ⟨b0, ?_, h2.perform _, fun c w hv => ?_⟩
        · exact (update_of_ne hV ..).trans h1
        · rcases vote_perform.mp hv with hv | ⟨_, heq⟩
          · exact h3 c w hv
          · cases heq
            exact absurd rfl hV
    | _ =>
      obtain ⟨b, h1, h2, h3⟩ := h.under hu
      refine ⟨b, h1, h2.perform _, fun c w hv => ?_⟩
      rcases vote_perform.mp hv with hv | ⟨_, heq⟩
      · exact h3 c w hv
      · cases heq
  · intro a v hv0 hv
    by_cases hle : v ≤ (s.node a).store.lastCommitted
    · obtain ⟨b, h1, h2⟩ := h.committed hv0 hle
      exact ⟨b, (bl_perform_committed he hle).trans h1, h2.grows hah.grows⟩
    · -- only `last_committed` of `i` itself can have moved past `v`
      by_cases ha : a = i
      · subst ha
        rw [perform_store] at hv ⊢
        cases e with
        | putLastCommitted v' =>
          obtain ⟨b, h1, h2⟩ := he.2 v (not_le.mp hle) hv
          exact ⟨b, h1, h2.grows hah.grows⟩
        | _ => exact absurd hv hle
      · rw [perform_node_ne i s ha] at hv
        exact absurd hv hle
  · exact fun a => (bl_perform_committed he (Nat.zero_le _)).trans (h.zero a)
  · intro a j m hm
    rw [perform_log, mem_cons, Prod.mk.injEq] at hm
    rcases hm with ⟨rfl, rfl⟩ | hm
    · exact MsgOk.mono he hah
    · exact (h.msg hm).mono hah

end Paxos
end Ceph
