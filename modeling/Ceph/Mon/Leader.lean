/-
# What a leader knows

What a running monitor's memory says of the votes, in particular a leader's:
while it recovers, how far the votes of the monitors it counted reach; when
it is active, that nothing was or will be decided under lower numbers for the
versions to come; while it updates, that its own proposal is the only one
under its number. The recovery rule of Paxos links the first to the others.
-/
import Ceph.Mon.Votes

namespace Ceph
namespace Paxos

variable {n lease : ℕ} {s s' : Cluster} {i : ℕ} {m : Mon}

/-! ### What a monitor's memory says -/

/-- A leader in recovery: the monitors counted so far hold its number, and
their votes below it reach no further than the value found. -/
structure Recovering (s : Cluster) (i : ℕ) (m : Mon) : Prop where
  counted : ∀ a, a = i ∨ a ∈ m.lastsFrom → m.acceptedPn ≤ held s a ∧
    ∀ V c w, Vote s a V c w → c < m.acceptedPn → V ≤ m.lastCommitted + 1 ∧
      (V = m.lastCommitted + 1 → c ≤ m.uncommittedPn ∧
        (m.uncommittedV < m.lastCommitted + 1 → c < m.uncommittedPn))
  found : m.uncommittedV ≤ m.lastCommitted + 1
  report : (m.uncommittedPn = 0 ∧ m.uncommittedV = 0) ∨
    ∃ a, Vote s a m.uncommittedV m.uncommittedPn m.uncommittedValue
  unused : ∀ V w, ¬ Vote s i V m.acceptedPn w

/-- A leader that may propose what it likes for the next version. -/
structure Clear (n : ℕ) (s : Cluster) (i : ℕ) (m : Mon) : Prop where
  free : ∀ V, m.lastCommitted < V → Free n s V m.acceptedPn
  unused : ∀ w, ¬ Vote s i (m.lastCommitted + 1) m.acceptedPn w

/-- A leader that has proposed `newValue`. -/
structure Proposed (n : ℕ) (s : Cluster) (i : ℕ) (m : Mon) : Prop where
  vote : Vote s i (m.lastCommitted + 1) m.acceptedPn m.newValue
  stored : (s.node i).store.bl (m.lastCommitted + 1) = some m.newValue
  free : ∀ V, m.lastCommitted + 1 < V → Free n s V m.acceptedPn
  accepted : ∀ a ∈ m.accepted, ∃ w, Vote s a (m.lastCommitted + 1) m.acceptedPn w

/-- A leader. -/
structure LeadOk (n : ℕ) (s : Cluster) (i : ℕ) (m : Mon) : Prop where
  recovering : m.state = .recovering → Recovering s i m
  active : m.state = .active → Clear n s i m
  proposed : m.state = .updating → m.newValue ≠ [] → Proposed n s i m
  committed : m.state = .updating → m.newValue = [] → Clear n s i m

/-- A running monitor. -/
structure NodeOk (n : ℕ) (s : Cluster) (i : ℕ) (m : Mon) : Prop where
  lastCommitted : m.lastCommitted = (s.node i).store.lastCommitted
  stored : (s.node i).store.acceptedPn ≤ m.acceptedPn
  held : m.acceptedPn ≤ held s i
  peon : m.role = .peon → m.state = .updating → m.acceptedPn % 100 ≠ i
  lead : m.role = .leader → LeadOk n s i m

/-- The part of it that says how memory and store compare. -/
structure Tracks (s : Cluster) (i : ℕ) (m : Mon) : Prop where
  lastCommitted : m.lastCommitted = (s.node i).store.lastCommitted
  stored : (s.node i).store.acceptedPn ≤ m.acceptedPn
  held : m.acceptedPn ≤ Paxos.held s i

/-- What does not concern `i`: the cluster goes ahead, but not `i`'s store, nor
its votes. -/
structure Besides (s s' : Cluster) (i : ℕ) : Prop where
  ahead : Ahead s s'
  lastCommitted : (s'.node i).store.lastCommitted = (s.node i).store.lastCommitted
  acceptedPn : (s'.node i).store.acceptedPn = (s.node i).store.acceptedPn
  bl : (s'.node i).store.bl = (s.node i).store.bl
  votes : ∀ {V c w}, Vote s' i V c w → Vote s i V c w

theorem Recovering.besides (h : Recovering s i m) (hb : Besides s s' i) : Recovering s' i m := by
  refine ⟨fun a ha => ?_, h.found, ?_, fun V w hv => h.unused V w (hb.votes hv)⟩
  · obtain ⟨hp, hvotes⟩ := h.counted a ha
    refine ⟨hp.trans (hb.ahead.grows.held a), fun V c w hv hc => ?_⟩
    exact hvotes V c w (hb.ahead.vote_of_lt hv (hc.trans_le hp)) hc
  · rcases h.report with h0 | ⟨a, hv⟩
    · exact .inl h0
    · exact .inr ⟨a, hb.ahead.vote hv⟩

theorem Clear.besides (h : Clear n s i m) (hb : Besides s s' i) : Clear n s' i m :=
  ⟨fun V hV => (h.free V hV).grows hb.ahead.grows, fun w hv => h.unused w (hb.votes hv)⟩

theorem Proposed.besides (h : Proposed n s i m) (hb : Besides s s' i) : Proposed n s' i m := by
  refine ⟨hb.ahead.vote h.vote, by rw [hb.bl]; exact h.stored,
    fun V hV => (h.free V hV).grows hb.ahead.grows, fun a ha => ?_⟩
  obtain ⟨w, hw⟩ := h.accepted a ha
  exact ⟨w, hb.ahead.vote hw⟩

theorem LeadOk.besides (h : LeadOk n s i m) (hb : Besides s s' i) : LeadOk n s' i m :=
  ⟨fun hs => (h.recovering hs).besides hb, fun hs => (h.active hs).besides hb,
    fun hs hv => (h.proposed hs hv).besides hb, fun hs hv => (h.committed hs hv).besides hb⟩

theorem NodeOk.besides (h : NodeOk n s i m) (hb : Besides s s' i) : NodeOk n s' i m :=
  ⟨h.lastCommitted.trans hb.lastCommitted.symm, hb.acceptedPn.le.trans h.stored,
    h.held.trans (hb.ahead.grows.held i), h.peon, fun hl => (h.lead hl).besides hb⟩

/-- The clocks and timers do not matter. -/
theorem LeadOk.of_same (h : LeadOk n s i m) {m' : Mon} (hs : SameLead m m')
    (hlc : m'.lastCommitted = m.lastCommitted) (hacc : m'.acceptedPn = m.acceptedPn) : LeadOk n s i m' := by
  obtain ⟨_, hst, _, _, hfrom, huv, hupn, hval, hnew, haccd⟩ := hs
  have hclear : Clear n s i m → Clear n s i m' := by
    intro hc
    exact ⟨fun V hV => hacc ▸ hc.free V (hlc ▸ hV), fun w hv => hc.unused w (hlc ▸ hacc ▸ hv)⟩
  refine ⟨fun h0 => ?_, fun h0 => hclear (h.active (hst.trans h0)), fun h0 hv => ?_,
    fun h0 hv => hclear (h.committed (hst.trans h0) (hnew.trans hv))⟩
  · have hr := h.recovering (hst.trans h0)
    refine ⟨?_, ?_, ?_, ?_⟩
    · rw [hacc, hlc, ← hfrom, ← huv, ← hupn]
      exact hr.counted
    · rw [← huv, hlc]
      exact hr.found
    · rw [← huv, ← hupn, ← hval]
      exact hr.report
    · rw [hacc]
      exact hr.unused
  · have hp := h.proposed (hst.trans h0) (by rw [hnew]; exact hv)
    refine ⟨?_, ?_, ?_, ?_⟩
    · rw [hacc, hlc, ← hnew]
      exact hp.vote
    · rw [hlc, ← hnew]
      exact hp.stored
    · rw [hacc, hlc]
      exact hp.free
    · rw [hacc, hlc, ← haccd]
      exact hp.accepted

/-! ### Recovery -/

theorem counted_quorum (hq : IsQuorum n i m.quorum) (hL : Leading s i m)
    (hall : m.numLast = m.quorum.card) :
    Majority n m.quorum ∧ ∀ a ∈ m.quorum, a = i ∨ a ∈ m.lastsFrom := by
  refine ⟨⟨hq.2.1, hq.2.2⟩, fun a ha => ?_⟩
  by_cases hai : a = i
  · exact .inl hai
  · exact .inr (hL.mem_lastsFrom hall ha hai)

/-- **Later versions are free.** -/
theorem recovered_free (hq : IsQuorum n i m.quorum) (hL : Leading s i m) (h : Recovering s i m)
    (hall : m.numLast = m.quorum.card) {V : ℕ} (hV : m.lastCommitted + 1 < V) :
    Free n s V m.acceptedPn := by
  obtain ⟨hmaj, hmem⟩ := counted_quorum hq hL hall
  intro c hc
  refine ⟨m.quorum, hmaj, fun a ha => ?_⟩
  obtain ⟨hp, hvotes⟩ := h.counted a (hmem a ha)
  refine ⟨hc.trans_le hp, fun w hv => ?_⟩
  have := (hvotes V c w hv hc).1
  omega

section

variable (hD : Durable n s) (hq : IsQuorum n i m.quorum) (hL : Leading s i m) (h : Recovering s i m) (hall : m.numLast = m.quorum.card)
include hD hq hL h hall

/-- **A value found for the next version** may be proposed again. -/
theorem recovered_safe (hV : m.uncommittedV = m.lastCommitted + 1) :
    Safe n s (m.lastCommitted + 1) m.acceptedPn m.uncommittedValue := by
  obtain ⟨hmaj, hmem⟩ := counted_quorum hq hL hall
  obtain ⟨x, hx⟩ : ∃ a, Vote s a (m.lastCommitted + 1) m.uncommittedPn m.uncommittedValue := by
    rcases h.report with ⟨_, h0⟩ | ⟨a, hv⟩
    · omega
    · exact ⟨a, hV ▸ hv⟩
  have howner := (hD.vote hx).2.2.2.2.2.2
  refine Ballots.safe_of_max (B := s.ballots) hmaj (fun a ha => (h.counted a (hmem a ha)).1) ?_
    (hD.safe howner).1 ?_
  · exact fun a ha c hc w hv => (((h.counted a (hmem a ha)).2 _ c w hv hc).2 rfl).1
  · exact fun a w hv => hD.unique (hD.vote hv).2.2.2.2.2.2 howner

/-- **Without one** the next version is free. -/
theorem recovered_clear (hV : m.uncommittedV ≠ m.lastCommitted + 1) :
    Clear n s i m := by
  obtain ⟨hmaj, hmem⟩ := counted_quorum hq hL hall
  have hlt : m.uncommittedV < m.lastCommitted + 1 := lt_of_le_of_ne h.found hV
  refine ⟨fun V hVlt => ?_, fun w => h.unused _ w⟩
  by_cases hV1 : m.lastCommitted + 1 < V
  · exact recovered_free hq hL h hall hV1
  obtain rfl : V = m.lastCommitted + 1 := by omega
  refine Ballots.free_of_below (B := s.ballots) (u := m.uncommittedPn) hmaj
    (fun a ha => (h.counted a (hmem a ha)).1) ?_ ?_
  · intro a ha c hle hc w hv
    have := (((h.counted a (hmem a ha)).2 _ c w hv hc).2 rfl).2 hlt
    omega
  · -- below the number of the value found, its proposer had found the later versions free
    rcases h.report with ⟨h0, _⟩ | ⟨a, hv⟩
    · rw [h0]
      exact fun c hc => absurd hc (Nat.not_lt_zero c)
    · exact (hD.safe (hD.vote hv).2.2.2.2.2.2).2 _ hlt

end

end Paxos
end Ceph
