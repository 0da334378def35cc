/-
# Proposal numbers, requests and replies

Where the proposal numbers in the stores and in the messages come from. A
monitor of rank below 100 picks numbers of its own residue, each above the
last it stored; so a number in a message names the monitor that picked it,
and a COLLECT's number is new on its link. The requests of a leader (COLLECT,
BEGIN) and the replies to them (LAST, ACCEPT) are then counted on each link:
a peon answers a request at most once.
-/
import Ceph.Mon.Handlers

namespace Ceph
namespace Paxos

open List Cluster

variable {n lease : ℕ} {s s' : Cluster} {i : ℕ}

/-! ### Numbers -/

/-- `p` is a number that `i` picked. -/
def Own (s : Cluster) (i p : ℕ) : Prop := p % 100 = i ∧ p ≤ (s.node i).store.lastPn ∧ 100 ≤ p

/-- `a` has accepted `p` from a COLLECT. -/
def Put (s : Cluster) (a p : ℕ) : Prop := (a, .putAcceptedPn p) ∈ s.log

/-- Where the numbers in the stores and in the messages come from. -/
structure Numbers (s : Cluster) : Prop where
  collect_own : ∀ {i a m}, m ∈ s.net i a → m.op = .collect → a ≠ i ∧ Own s i m.pn
  begin_own : ∀ {i a m}, m ∈ s.net i a → m.op = .begin → a ≠ i ∧ Own s i m.pn
  last_own : ∀ {a i m}, m ∈ s.net a i → m.op = .last →
    a ≠ i ∧ Own s (m.pn % 100) m.pn ∧ (m.pn % 100 = i → Put s a m.pn)
  accept_own : ∀ {a i m}, m ∈ s.net a i → m.op = .accept → a ≠ i ∧ Own s i m.pn
  put_own : ∀ {a p}, Put s a p → Own s (p % 100) p
  put_before : ∀ {a p m}, Put s a p → m ∈ s.net (p % 100) a → m.op = .collect → p < m.pn
  sorted : ∀ i a, (s.net i a).Pairwise fun m m' => m.op = .collect → m'.op = .collect → m.pn < m'.pn
  stored : ∀ a, (s.node a).store.acceptedPn = 0 ∨ Put s a (s.node a).store.acceptedPn

/-- The condition under which an effect of `i` keeps `Numbers`. -/
def Fit (i : ℕ) (s : Cluster) : Effect → Prop
  | .putLastPn p => (s.node i).store.lastPn ≤ p
  | .putAcceptedPn p => Own s (p % 100) p ∧ ∀ m ∈ s.net (p % 100) i, m.op = .collect → p < m.pn
  | .send j m => match m.op with
    | .collect => j ≠ i ∧ Own s i m.pn ∧ (∀ m' ∈ s.net i j, m'.op = .collect → m'.pn < m.pn) ∧
        ∀ p, Put s j p → p % 100 = i → p < m.pn
    | .last => j ≠ i ∧ Own s (m.pn % 100) m.pn ∧ (m.pn % 100 = j → Put s i m.pn)
    | .begin => j ≠ i ∧ Own s i m.pn
    | .accept => j ≠ i ∧ Own s j m.pn
    | _ => True
  | _ => True

theorem Own.mono {p : ℕ} (h : Own s i p)
    (hle : (s.node i).store.lastPn ≤ (s'.node i).store.lastPn) : Own s' i p :=
  ⟨h.1, h.2.1.trans hle, h.2.2⟩

theorem Numbers.shrink (h : Numbers s) (hnode : ∀ i, (s'.node i).store.lastPn = (s.node i).store.lastPn ∧
      (s'.node i).store.acceptedPn = (s.node i).store.acceptedPn)
    (hlog : s'.log = s.log) (hnet : ∀ a b, (s'.net a b).Sublist (s.net a b)) : Numbers s' := by
  have hown : ∀ {i p}, Own s i p → Own s' i p := fun ho => ho.mono (hnode _).1.ge
  have hput : ∀ {a p}, Put s' a p ↔ Put s a p := by unfold Put; rw [hlog]
  refine ⟨?_, ?_, ?_, ?_, ?_, ?_, ?_, ?_⟩
  · intro i a m hm hop
    exact (h.collect_own ((hnet i a).subset hm) hop).imp_right hown
  · intro i a m hm hop
    exact (h.begin_own ((hnet i a).subset hm) hop).imp_right hown
  · intro a i m hm hop
    obtain ⟨h1, h2, h3⟩ := h.last_own ((hnet a i).subset hm) hop
    exact ⟨h1, hown h2, fun he => hput.mpr (h3 he)⟩
  · intro a i m hm hop
    exact (h.accept_own ((hnet a i).subset hm) hop).imp_right hown
  · intro a p hp
    exact hown (h.put_own (hput.mp hp))
  · intro a p m hp hm hop
    exact h.put_before (hput.mp hp) ((hnet _ a).subset hm) hop
  · intro i a
    exact (h.sorted i a).sublist (hnet i a)
  · intro a
    rw [(hnode a).2, hput]
    exact h.stored a

variable {e : Effect} {es : List Effect} {M : MMonPaxos} {ds : List ℕ} {m : Mon} {st : Store} {c : MMonPaxos}
  {ms : List MMonPaxos} {ev : Event} {o : Handled} {s₁ : Cluster}

theorem perform_lastPn_le (hf : Fit i s e) (j : ℕ) :
    (s.node j).store.lastPn ≤ ((s.perform i e).node j).store.lastPn := by
  by_cases hj : j = i
  · subst hj
    rw [perform_store]
    cases e with
    | putLastPn p => exact hf
    | _ => exact le_rfl
  · rw [perform_node_ne i s hj]

theorem Put.perform {a p : ℕ} (h : Put s a p) (e : Effect) : Put (s.perform i e) a p :=
  mem_cons_of_mem _ h

theorem put_perform {a p : ℕ} :
    Put (s.perform i e) a p ↔ Put s a p ∨ (a = i ∧ e = .putAcceptedPn p) := by
  unfold Put
  rw [perform_log, mem_cons, Prod.mk.injEq]
  constructor
  · rintro (⟨rfl, rfl⟩ | h)
    · exact .inr ⟨rfl, rfl⟩
    · exact .inl h
  · rintro (h | ⟨rfl, rfl⟩)
    · exact .inr h
    · exact .inl ⟨rfl, rfl⟩

theorem mem_perform_net {a b : ℕ} {m : MMonPaxos} :
    m ∈ (s.perform i e).net a b ↔ m ∈ s.net a b ∨ (a = i ∧ e = .send b m) := by
  have h := performAll_net i s [e] a b
  rw [performAll_cons, performAll_nil] at h
  rw [h]
  split_ifs with ha
  · rw [mem_append, mem_sendsTo, mem_singleton]
    simp [ha, eq_comm]
  · simp [ha]

/-- **One effect.** -/
theorem Numbers.perform (h : Numbers s) (hf : Fit i s e) : Numbers (s.perform i e) := by
  have hown : ∀ {j p}, Own s j p → Own (s.perform i e) j p :=
    fun ho => ho.mono (perform_lastPn_le hf _)
  refine ⟨?_, ?_, ?_, ?_, ?_, ?_, ?_, ?_⟩
  · intro j a m hm hop
    rcases mem_perform_net.mp hm with hm | ⟨rfl, rfl⟩
    · exact (h.collect_own hm hop).imp_right hown
    · simp only [Fit, hop] at hf
      exact ⟨hf.1, hown hf.2.1⟩
  · intro j a m hm hop
    rcases mem_perform_net.mp hm with hm | ⟨rfl, rfl⟩
    · exact (h.begin_own hm hop).imp_right hown
    · simp only [Fit, hop] at hf
      exact ⟨hf.1, hown hf.2⟩
  · intro a j m hm hop
    rcases mem_perform_net.mp hm with hm | ⟨rfl, rfl⟩
    · obtain ⟨h1, h2, h3⟩ := h.last_own hm hop
      exact ⟨h1, hown h2, fun he => (h3 he).perform e⟩
    · simp only [Fit, hop] at hf
      exact ⟨hf.1.symm, hown hf.2.1, fun he => (hf.2.2 he).perform _⟩
  · intro a j m hm hop
    rcases mem_perform_net.mp hm with hm | ⟨rfl, rfl⟩
    · exact (h.accept_own hm hop).imp_right hown
    · simp only [Fit, hop] at hf
      exact ⟨hf.1.symm, hown hf.2⟩
  · intro a p hp
    rcases put_perform.mp hp with hp | ⟨rfl, rfl⟩
    · exact hown (h.put_own hp)
    · exact hown hf.1
  · intro a p m hp hm hop
    rcases put_perform.mp hp with hp' | ⟨rfl, rfl⟩
    · rcases mem_perform_net.mp hm with hm | ⟨hi, rfl⟩
      · exact h.put_before hp' hm hop
      · simp only [Fit, hop] at hf
        exact hf.2.2.2 p hp' hi
    · exact hf.2 m hm hop
  · intro j a
    have hnet := performAll_net i s [e] j a
    rw [performAll_cons, performAll_nil] at hnet
    rw [hnet]
    split_ifs with hj
    · subst hj
      refine pairwise_append.mpr ⟨h.sorted j a, ?_, ?_⟩
      · cases e with
        | send k m => by_cases hk : k = a <;> simp [hk]
        | _ => simp
      · intro m hm m' hm' hop hop'
        rw [mem_sendsTo, mem_singleton] at hm'
        subst hm'
        simp only [Fit, hop'] at hf
        exact hf.2.2.1 m hm hop
    · exact h.sorted j a
  · intro a
    rcases h.stored a with h0 | hp
    · by_cases ha : a = i
      · subst ha
        rw [perform_store]
        cases e with
        | putAcceptedPn p => exact .inr (put_perform.mpr (.inr ⟨rfl, rfl⟩))
        | _ => exact .inl h0
      · rw [perform_node_ne i s ha]
        exact .inl h0
    · by_cases ha : a = i
      · subst ha
        rw [perform_store]
        cases e with
        | putAcceptedPn p => exact .inr (put_perform.mpr (.inr ⟨rfl, rfl⟩))
        | _ => exact .inr (hp.perform _)
      · rw [perform_node_ne i s ha]
        exact .inr (hp.perform e)

/-! ### The handlers keep the numbers -/

/-- Effects that carry no number. -/
def Effect.Plain : Effect → Prop
  | .putLastPn _ => False
  | .putAcceptedPn _ => False
  | .send _ m => m.op = .commit ∨ m.op = .lease ∨ m.op = .leaseAck
  | _ => True

theorem Effect.Quiet.plain (h : e.Quiet) : e.Plain := by
  cases e with
  | send j m => exact .inr h
  | finishContexts w b => trivial
  | _ => exact h.elim

theorem fit_plain (h : e.Plain) : Fit i s e := by
  cases e with
  | send j m => rcases h with h | h | h <;> simp [Fit, h]
  | putLastPn p => exact h.elim
  | putAcceptedPn p => exact h.elim
  | _ => trivial

/-- The conditions of a handler's effects, one after the other. -/
abbrev Fits (i : ℕ) (s : Cluster) (es : List Effect) : Prop := Chain (Cluster.perform i) (Fit i) s es

theorem fits_plain (h : ∀ e ∈ es, e.Plain) : Fits i s es := by
  induction es generalizing s with
  | nil => trivial
  | cons e es ih =>
    refine ⟨fit_plain (h e mem_cons_self), ih fun e' he' => ?_⟩
    exact h e' (mem_cons_of_mem e he')

theorem Numbers.performAll (h : Numbers s) (hf : Fits i s es) : Numbers (s.performAll i es) :=
  Chain.inv (P := Numbers) (fun _ _ hP hF => hP.perform hF) hf h

theorem plain_performAll (h : ∀ e ∈ es, e.Plain) :
    ((s.performAll i es).node i).store.lastPn = (s.node i).store.lastPn ∧
      ((s.performAll i es).node i).store.acceptedPn = (s.node i).store.acceptedPn := by
  rw [performAll_store]
  generalize (s.node i).store = st
  induction es generalizing st with
  | nil => exact ⟨rfl, rfl⟩
  | cons e es ih =>
    have hes := ih (fun e' he' => h e' (mem_cons_of_mem e he')) (st.perform e)
    have he : (st.perform e).lastPn = st.lastPn ∧ (st.perform e).acceptedPn = st.acceptedPn := by
      have hp := h e mem_cons_self
      cases e with
      | putLastPn p => exact hp.elim
      | putAcceptedPn p => exact hp.elim
      | _ => exact ⟨rfl, rfl⟩
    exact ⟨hes.1.trans he.1, hes.2.trans he.2⟩

theorem fits_begins (hop : M.op = .begin) (hd : ∀ d ∈ ds, d ≠ i)
    (ho : Own s i M.pn) : Fits i s (ds.map fun d => .send d M) := by
  refine chain_of_forall ?_ ?_
  · intro e he
    obtain ⟨d, hdm, rfl⟩ := mem_map.mp he
    simp only [Fit, hop]
    exact ⟨hd d hdm, ho⟩
  · refine pairwise_map.mpr (pairwise_of_forall fun d d' => ?_)
    intro t ht
    simp only [Fit, hop] at ht ⊢
    refine ⟨ht.1, ht.2.mono ?_⟩
    rw [perform_store]
    exact le_rfl

/-- A broadcast of COLLECTs with a new number. -/
theorem fits_collects (hop : M.op = .collect) (hd : ∀ d ∈ ds, d ≠ i)
    (hnd : ds.Nodup) (ho : Own s i M.pn)
    (hnet : ∀ d ∈ ds, ∀ m' ∈ s.net i d, m'.op = .collect → m'.pn < M.pn)
    (hput : ∀ d ∈ ds, ∀ p, Put s d p → p % 100 = i → p < M.pn) :
    Fits i s (ds.map fun d => .send d M) := by
  refine chain_of_forall ?_ ?_
  · intro e he
    obtain ⟨d, hdm, rfl⟩ := mem_map.mp he
    simp only [Fit, hop]
    exact ⟨hd d hdm, ho, hnet d hdm, hput d hdm⟩
  · refine pairwise_map.mpr (hnd.imp ?_)
    intro d d' hne t ht
    simp only [Fit, hop] at ht ⊢
    refine ⟨ht.1, ht.2.1.mono ?_, ?_, ?_⟩
    · rw [perform_store]
      exact le_rfl
    · intro m' hm' hop'
      rcases mem_perform_net.mp hm' with hm' | ⟨_, hs⟩
      · exact ht.2.2.1 m' hm' hop'
      · cases hs
        exact absurd rfl hne
    · intro p hp
      rcases put_perform.mp hp with hp | ⟨_, hp⟩
      · exact ht.2.2.2 p hp
      · cases hp

/-- `collect`'s effects, when the number it picks is its own and new. -/
theorem fits_collect (hN : Numbers s) (hop : M.op = .collect)
    (hd : ∀ d ∈ ds, d ≠ i) (hnd : ds.Nodup) (hmod : M.pn % 100 = i)
    (hlt : (s.node i).store.lastPn < M.pn) (h100 : 100 ≤ M.pn) :
    Fits i s (.putLastPn M.pn :: ds.map fun d => .send d M) := by
  refine ⟨hlt.le, fits_collects hop hd hnd ⟨hmod, ?_, h100⟩ ?_ ?_⟩
  · rw [perform_store]
    exact le_rfl
  · intro d _ m' hm' hop'
    exact lt_of_le_of_lt (hN.collect_own hm' hop').2.2.1 hlt
  · intro d _ p hp hpi
    rcases put_perform.mp hp with hp | ⟨_, hp⟩
    · have ho := hN.put_own hp
      rw [hpi] at ho
      exact lt_of_le_of_lt ho.2.1 hlt
    · cases hp

theorem hundred_le_pickedPn (me oldpn : ℕ) (m : Mon) : 100 ≤ pickedPn me oldpn m := by
  unfold pickedPn newProposalNumber
  omega

/-- What a running monitor's numbers are. -/
structure Recalls (s : Cluster) (i : ℕ) (m : Mon) : Prop where
  lastPn : m.lastPn = (s.node i).store.lastPn
  accepted : m.acceptedPn = 0 ∨ Own s i m.acceptedPn ∨ Put s i m.acceptedPn

theorem Recalls.own_of_pos (hN : Numbers s) (h : Recalls s i m) (hpos : 0 < m.acceptedPn) :
    Own s (m.acceptedPn % 100) m.acceptedPn := by
  rcases h.accepted with h0 | ho | hp
  · omega
  · rw [ho.1]; exact ho
  · exact hN.put_own hp

theorem Numbers.received (h : Numbers s) (src : ℕ) : Numbers (s.received src i) :=
  h.shrink (fun _ => ⟨rfl, rfl⟩) rfl (s.net.take_sublist src i 0)

/-- What the condition of a run says of one event: no monitor of rank 100 or
more wins, and the leader handles no LAST below its `accepted_pn`, that is no
answer to a collect it has since started over. -/
def FreshLasts (s : Cluster) : Event → Prop
  | .win i _ q => q.card ≠ 1 → i < 100
  | .deliver i j _ => ∀ m ∈ (s.net i j).head?, m.op = .last → (s.node j).mon.role = .leader →
      m.epoch = (s.node j).mon.monEpoch → (s.node j).mon.acceptedPn ≤ m.pn
  | _ => True

/-- A condition on events, as one on actions. -/
def OnEvents (C : Cluster → Event → Prop) (s : Cluster) : Act → Prop
  | .run ev => C s ev
  | .cut ev _ => C s ev
  | _ => True

theorem plain_shared_learned (st : Store) (src : ℕ) (last : MMonPaxos) (m : Mon) :
    ∀ e ∈ shared st src last m ++ learned last m, e.Plain := by
  intro e he
  rcases mem_append.mp he with he | he
  · unfold shared at he
    split_ifs at he
    · rw [mem_singleton] at he
      subst he
      exact .inl rfl
    · nomatch he
  · unfold learned at he
    split_ifs at he
    · rcases mem_append.mp he with he | he
      · obtain ⟨v, _, rfl⟩ := mem_map.mp he
        trivial
      · rw [mem_singleton] at he
        subst he
        trivial
    · nomatch he

theorem plain_wakeAll : ∀ e ∈ wakeAll, e.Plain := fun _ he => (quiet_wakeAll he).plain

/-- The effects of `begin`. -/
theorem fits_begin {v : Blob} (ho : m.quorum.card ≠ 1 → Own s i m.acceptedPn) :
    Fits i s (begin n i v m).effs := by
  rcases begin_cases n i m v with ⟨m', h⟩ | ⟨_, _, m', es, h, _, _, _, _, _, _, M, rfl, hM⟩ |
    ⟨h1, _, _, _, _, h⟩
  · rw [h]; exact trivial
  · rw [h]
    refine fits_plain fun e he => ?_
    simp only [Out.emit_effs, mem_cons, mem_append, mem_map] at he
    rcases he with rfl | rfl | ⟨d, _, rfl⟩ | he
    · trivial
    · trivial
    · exact .inl hM
    · exact plain_wakeAll e he
  · rw [h]
    refine ⟨trivial, fits_begins rfl (fun d hd => (mem_others.mp hd).2.2) ?_⟩
    refine (ho h1).mono ?_
    rw [perform_store]
    exact le_rfl

theorem plain_countAccept (src : ℕ) (m : Mon) : ∀ e ∈ (countAccept n i src m).effs, e.Plain := by
  intro e he
  rcases countAccept_cases n i m src with ⟨_, h⟩ | ⟨_, h⟩
  · rw [h] at he
    simp only [Out.emit_effs, mem_cons, mem_map] at he
    rcases he with rfl | ⟨d, _, rfl⟩
    · trivial
    · exact .inl rfl
  · rw [h] at he
    nomatch he

theorem plain_finishAccepts (now : ℕ) (m : Mon) : ∀ e ∈ (finishAccepts n i lease now m).effs, e.Plain := by
  intro e he
  rcases finishAccepts_cases n i lease m now with ⟨_, h⟩ | ⟨_, h, _⟩
  · rw [h] at he
    nomatch he
  · exact (h e he).plain

theorem plain_handleAccept (src now : ℕ) (a : MMonPaxos) (m : Mon) :
    ∀ e ∈ (handleAccept n i lease src a now m).effs, e.Plain := by
  intro e he
  rcases handleAccept_cases n i lease m src a now with
    ⟨h, _⟩ | ⟨_, _, _, _, h⟩
  · rw [h] at he
    nomatch he
  · rw [h] at he
    unfold Out.andThen at he
    split_ifs at he
    · rcases mem_append.mp he with he | he
      · exact plain_countAccept src m e he
      · exact plain_finishAccepts now _ e he
    · exact plain_countAccept src m e he

theorem plain_handleCommit (c : MMonPaxos) (hp : m.role = .peon) :
    ∀ e ∈ (handleCommit c m).effs, e.Plain := by
  intro e he
  obtain ⟨ws, _, _, _, ⟨h, _⟩ | h⟩ := handleCommit_spec m c hp
  · rw [h] at he
    obtain ⟨p, _, rfl⟩ := mem_map.mp he
    trivial
  · rw [h] at he
    rcases mem_append.mp he with he | he
    · obtain ⟨p, _, rfl⟩ := mem_map.mp he
      trivial
    · rw [mem_singleton] at he
      subst he
      trivial

/-- `collect` on a cluster that recalls `m`'s last number. -/
theorem fits_collect_out (hN : Numbers s) (oldpn : ℕ) (hl : m.role = .leader)
    (hlast : m.lastPn = (s.node i).store.lastPn) (hi : i < 100) :
    Fits i s (collect n i st oldpn m).effs := by
  obtain ⟨m', _, h⟩ := collect_spec n i st m oldpn hl
  rw [h]
  refine fits_collect (M := collectMsg m (pickedPn i oldpn m)) hN rfl
    (fun d hd => (mem_others.mp hd).2.2) (nodup_others n i _) (pickedPn_mod i hi oldpn m) ?_
    (hundred_le_pickedPn i oldpn m)
  rw [← hlast]
  exact (lt_pickedPn i oldpn m).1

theorem fits_handleCollect (hN : Numbers s) {src : ℕ} (hnet : s.net src i = c :: ms) (hop : c.op = .collect) (hp : m.role = .peon)
    (hR : Recalls s i m) : Fits i (s.received src i) (handleCollect st src c m).effs := by
  have hcm : c ∈ s.net src i := hnet ▸ mem_cons_self
  obtain ⟨hne, hown⟩ := hN.collect_own hcm hop
  have htail : (s.received src i).net src i = ms := by
    simp [received, Links.take, hnet]
  have hsort := hN.sorted src i
  rw [hnet, pairwise_cons] at hsort
  rcases handleCollect_cases st m src c hp with h | ⟨_, h⟩ | ⟨hle, h⟩
  · rw [h]; exact trivial
  · rw [h]
    refine ⟨⟨?_, ?_⟩, ?_, trivial⟩
    · rw [hown.1]; exact hown
    · rw [hown.1, htail]
      exact fun m' hm' hop' => hsort.1 m' hm' hop hop'
    · refine ⟨hne.symm, ?_, fun _ => put_perform.mpr (.inr ⟨rfl, rfl⟩)⟩
      rw [hown.1]
      exact ⟨hown.1, by simpa [received, hne.symm] using hown.2.1, hown.2.2⟩
  · rw [h]
    have hpos : 0 < m.acceptedPn := by
      have := hown.2.2
      omega
    refine ⟨⟨hne.symm, (hR.own_of_pos hN hpos).mono le_rfl, ?_⟩, trivial⟩
    intro hsrc
    rcases hR.accepted with h0 | ho | hput
    · omega
    · exact absurd (ho.1.symm.trans hsrc) hne
    · exact hput

theorem fits_handleBegin (hN : Numbers s) {src : ℕ} {b : MMonPaxos} (hnet : s.net src i = b :: ms) (hop : b.op = .begin) :
    Fits i (s.received src i) (handleBegin src b m).effs := by
  have hbm : b ∈ s.net src i := hnet ▸ mem_cons_self
  obtain ⟨hne, hown⟩ := hN.begin_own hbm hop
  rcases handleBegin_cases m src b with ⟨h, _⟩ | ⟨hpn, _, h⟩
  · rw [h]; exact trivial
  · rw [h]
    refine ⟨trivial, ⟨hne.symm, ?_⟩, trivial⟩
    rw [← hpn]
    refine ⟨hown.1, ?_, hown.2.2⟩
    rw [perform_node_ne _ _ hne.symm]
    exact hown.2.1

theorem fits_finishLasts (now : ℕ) (ho : m.quorum.card ≠ 1 → Own s i m.acceptedPn) :
    Fits i s (finishLasts n i lease now m).effs := by
  rcases finishLasts_cases n i lease m now with ⟨_, h⟩ | ⟨_, _, _, h⟩ | ⟨_, _, h, _⟩
  · rw [h]; exact trivial
  · rw [h]; exact fits_begin ho
  · exact fits_plain fun e he => (h e he).plain

theorem countLast_kept (src : ℕ) (last : MMonPaxos) (m : Mon) :
    (countLast src last m).quorum = m.quorum ∧ (countLast src last m).acceptedPn = m.acceptedPn ∧
      (countLast src last m).lastPn = m.lastPn ∧ (countLast src last m).role = m.role ∧
      (countLast src last m).lastCommitted = m.lastCommitted ∧
      (countLast src last m).newValue = m.newValue ∧ (countLast src last m).state = m.state ∧
      (countLast src last m).lastsFrom = src :: m.lastsFrom ∧
      (countLast src last m).numLast = m.numLast + 1 := by
  unfold countLast
  dsimp only
  split_ifs <;> exact ⟨rfl, rfl, rfl, rfl, rfl, rfl, rfl, rfl, rfl⟩

theorem fits_handleLast (hN : Numbers s) {src now : ℕ}
    (hl : m.role = .leader) (hlast : m.lastPn = (s.node i).store.lastPn) (hi : i < 100)
    (ho : m.quorum.card ≠ 1 → Own s i m.acceptedPn) :
    Fits i s (handleLast n i lease st src c now m).effs := by
  have hplain := plain_shared_learned st src c m
  obtain ⟨hlp, _⟩ := plain_performAll (s := s) (i := i) hplain
  have hpre : Fits i s (shared st src c m ++ learned c m) := fits_plain hplain
  rcases handleLast_cases n i lease st m src c now hl with ⟨_, h⟩ | ⟨_, h⟩
  · rw [h, Out.emit_andThen]
    refine (chain_append _ _ s).mpr ⟨hpre, ?_⟩
    exact fits_collect_out (hN.performAll hpre) _ hl (hlast.trans hlp.symm) hi
  · rw [h, Out.emit_andThen]
    refine (chain_append _ _ s).mpr ⟨hpre, ?_⟩
    refine fits_finishLasts now fun h1 => ?_
    obtain ⟨hq, ha, _⟩ := countLast_kept src c (withLearned c m)
    rw [hq] at h1
    rw [ha]
    exact (ho h1).mono hlp.ge

/-- **Every event keeps the numbers.** -/
theorem fits_move (hN : Numbers s)
    (hR : Recalls s i (s.node i).mon) (hrank : (s.node i).mon.role = .leader → i < 100)
    (ho : (s.node i).mon.role = .leader → (s.node i).mon.quorum.card ≠ 1 → Own s i (s.node i).mon.acceptedPn)
    (hm : Move n lease s i ev s₁ o) (hc : FreshLasts s ev) : Numbers s₁ ∧ Fits i s₁ o.effs := by
  cases hm with
  | quiet hs hq _ =>
    refine ⟨?_, fits_plain fun e he => (hq e he).plain⟩
    rcases hs with rfl | ⟨src, rfl⟩
    · exact hN
    · exact hN.received src
  | alone e q _ _ => exact ⟨hN, trivial⟩
  | win e q _ h1 => exact ⟨hN, fits_collect_out hN 0 rfl hR.lastPn (hc h1)⟩
  | propose v _ hl _ => exact ⟨hN, fits_begin fun h1 => ho hl h1⟩
  | collect src now c ms hnet hop _ hp => exact ⟨hN.received src, fits_handleCollect hN hnet hop hp hR⟩
  | last src now c ms hnet hop _ hl =>
    exact ⟨hN.received src, fits_handleLast (hN.received src) hl hR.lastPn (hrank hl) (ho hl)⟩
  | begin src now c ms hnet hop _ _ => exact ⟨hN.received src, fits_handleBegin hN hnet hop⟩
  | accept src now c ms hnet hop _ _ =>
    exact ⟨hN.received src, fits_plain (plain_handleAccept src now c _)⟩
  | commit src now c ms hnet hop _ hp => exact ⟨hN.received src, fits_plain (plain_handleCommit c hp)⟩

/-! ### Requests and replies in flight -/

/-- A message of kind `o` with number `p`. -/
def isOp (o : Op) (p : ℕ) (m : MMonPaxos) : Bool := m.op = o ∧ m.pn = p

/-- The requests from `i` to `a` and the replies to them, with number `p`, that
are in flight. -/
def inFlight (s : Cluster) (o o' : Op) (p i a : ℕ) : ℕ :=
  (s.net i a).countP (isOp o p) + (s.net a i).countP (isOp o' p)

/-- The two kinds of requests and their replies. -/
def Paired (o o' : Op) : Prop := (o = .collect ∧ o' = .last) ∨ (o = .begin ∧ o' = .accept)

theorem inFlight_mono {o o' : Op} {p j a : ℕ} (h1 : (s'.net j a).Sublist (s.net j a))
    (h2 : (s'.net a j).Sublist (s.net a j)) : inFlight s' o o' p j a ≤ inFlight s o o' p j a :=
  Nat.add_le_add h1.countP_le h2.countP_le

/-- Effects without LASTs and ACCEPTs. -/
def Effect.NoReply : Effect → Prop
  | .send _ m => m.op ≠ .last ∧ m.op ≠ .accept
  | _ => True

theorem Effect.Plain.noReply (h : e.Plain) : e.NoReply := by
  cases e with
  | send j m => rcases h with h | h | h <;> simp [Effect.NoReply, h]
  | _ => trivial

theorem countP_noReply {o o' : Op} (hp : Paired o o') (h : ∀ e ∈ es, e.NoReply)
    (p j : ℕ) : (sendsTo j es).countP (isOp o' p) = 0 := by
  rw [countP_eq_zero]
  intro m hm
  have hnr := h _ (mem_sendsTo.mp hm)
  rcases hp with ⟨_, rfl⟩ | ⟨_, rfl⟩
  · simp [isOp, hnr.1]
  · simp [isOp, hnr.2]

theorem noReply_bcast (h : M.op ≠ .last ∧ M.op ≠ .accept) :
    ∀ e ∈ ds.map fun d => Effect.send d M, e.NoReply := by
  intro e he
  obtain ⟨d, _, rfl⟩ := mem_map.mp he
  exact h

theorem noReply_collect (oldpn : ℕ) (hl : m.role = .leader) :
    ∀ e ∈ (collect n i st oldpn m).effs, e.NoReply := by
  obtain ⟨m', _, h⟩ := collect_spec n i st m oldpn hl
  rw [h]
  intro e he
  rcases mem_cons.mp he with rfl | he
  · trivial
  · exact noReply_bcast (by simp [collectMsg]) e he

theorem noReply_begin (v : Blob) (m : Mon) : ∀ e ∈ (begin n i v m).effs, e.NoReply := by
  rcases begin_cases n i m v with ⟨m', h⟩ | ⟨_, _, m', es, h, _, _, _, _, _, _, M, rfl, hM⟩ |
    ⟨_, _, _, _, _, h⟩
  · rw [h]; exact nofun
  · rw [h]
    intro e he
    simp only [Out.emit_effs, mem_cons, mem_append] at he
    rcases he with rfl | rfl | he | he
    · trivial
    · trivial
    · exact noReply_bcast (by simp [hM]) e he
    · exact (plain_wakeAll e he).noReply
  · rw [h]
    intro e he
    rcases mem_cons.mp he with rfl | he
    · trivial
    · exact noReply_bcast (by simp [beginMsg]) e he

theorem noReply_handleLast {src now : ℕ} (hl : m.role = .leader) :
    ∀ e ∈ (handleLast n i lease st src c now m).effs, e.NoReply := by
  have hplain := plain_shared_learned st src c m
  rcases handleLast_cases n i lease st m src c now hl with ⟨_, h⟩ | ⟨_, h⟩
  · rw [h, Out.emit_andThen]
    intro e he
    rcases mem_append.mp he with he | he
    · exact (hplain e he).noReply
    · exact noReply_collect (m := withLearned c m) _ hl e he
  · rw [h, Out.emit_andThen]
    intro e he
    rcases mem_append.mp he with he | he
    · exact (hplain e he).noReply
    · rcases finishLasts_cases n i lease (countLast src c (withLearned c m)) now with
        ⟨_, h⟩ | ⟨_, _, _, h⟩ | ⟨_, _, h, _⟩
      · rw [h] at he; nomatch he
      · rw [h] at he; exact noReply_begin _ _ e he
      · exact (h e he).plain.noReply

theorem received_net_self {src : ℕ} (hnet : s.net src i = c :: ms) :
    (s.received src i).net src i = ms := by
  simp [received, Links.take, hnet]

theorem received_net_ne {src a b : ℕ} (h : ¬ (a = src ∧ b = i)) :
    (s.received src i).net a b = s.net a b := by
  simp [received, Links.take, h]

theorem received_sublist (src a b : ℕ) : ((s.received src i).net a b).Sublist (s.net a b) :=
  s.net.take_sublist src i 0 a b

/-- A move takes at most the head of one link to `i`. -/
theorem Move.net_sublist (hm : Move n lease s i ev s₁ o)
    (a b : ℕ) : (s₁.net a b).Sublist (s.net a b) ∧ (b ≠ i → s₁.net a b = s.net a b) := by
  have hrec : ∀ src, ((s.received src i).net a b).Sublist (s.net a b) ∧
      (b ≠ i → (s.received src i).net a b = s.net a b) :=
    fun src => ⟨received_sublist src a b, fun hb => received_net_ne fun h => hb h.2⟩
  have hrefl : (s.net a b).Sublist (s.net a b) ∧ (b ≠ i → s.net a b = s.net a b) :=
    ⟨.refl _, fun _ => rfl⟩
  cases hm with
  | quiet hs _ _ =>
    rcases hs with rfl | ⟨src, rfl⟩
    · exact hrefl
    · exact hrec src
  | alone | win | propose => exact hrefl
  | collect src | last src | begin src | accept src | commit src => exact hrec src

theorem reply_le {src j p : ℕ} {q r : Op} {c M : MMonPaxos}
    (hnet : s.net src i = c :: ms) (hes : sendsTo j es = if src = j then [M] else [])
    (hM : src = j → isOp r p M = true → isOp q p c = true) :
    (sendsTo j es).countP (isOp r p) + ((s.received src i).net j i).countP (isOp q p) ≤
      (s.net j i).countP (isOp q p) := by
  rw [hes]
  by_cases hj : src = j
  · subst hj
    rw [received_net_self hnet, hnet, if_pos rfl, countP_cons, countP_cons, countP_nil]
    by_cases hr : isOp r p M = true
    · rw [if_pos hr, if_pos (hM rfl hr)]
      omega
    · rw [if_neg hr]
      omega
  · rw [if_neg hj, countP_nil, Nat.zero_add]
    exact (received_sublist src j i).countP_le

/-- **One answer to each request.** What `i` sends to `j` answers a request that
it took off the link. -/
theorem replies_le {q r : Op} (hqr : Paired q r)
    (hN : Numbers s) (hR : Recalls s i (s.node i).mon) (hm : Move n lease s i ev s₁ o) {j p : ℕ}
    (hpj : p % 100 = j) :
    (sendsTo j o.effs).countP (isOp r p) + (s₁.net j i).countP (isOp q p) ≤
      (s.net j i).countP (isOp q p) := by
  have hsub := (hm.net_sublist j i).1
  have hnone : (∀ e ∈ o.effs, e.NoReply) →
      (sendsTo j o.effs).countP (isOp r p) + (s₁.net j i).countP (isOp q p) ≤
        (s.net j i).countP (isOp q p) := by
    intro h
    rw [countP_noReply hqr h, Nat.zero_add]
    exact hsub.countP_le
  cases hm with
  | quiet _ hq _ => exact hnone fun e he => (hq e he).plain.noReply
  | alone _ _ _ _ => exact hnone nofun
  | win e q' _ _ => exact hnone (noReply_collect 0 rfl)
  | propose v _ _ _ => exact hnone (noReply_begin v _)
  | last src now c ms hnet hop _ hl => exact hnone (noReply_handleLast hl)
  | accept src now c ms hnet hop _ _ => exact hnone fun e he => (plain_handleAccept src now c _ e he).noReply
  | commit src now c ms hnet hop _ hp => exact hnone fun e he => (plain_handleCommit c hp e he).noReply
  | collect src now c ms hnet hop _ hp =>
    have hcm : c ∈ s.net src i := hnet ▸ mem_cons_self
    obtain ⟨hne, hown⟩ := hN.collect_own hcm hop
    rcases handleCollect_cases (s.node i).store (s.node i).mon src c hp with h | ⟨_, h⟩ | ⟨hle, h⟩
    · refine hnone ?_
      rw [h]
      exact nofun
    · refine reply_le hnet (by rw [h]; simp; rfl) fun _ hr => ?_
      rcases hqr with ⟨rfl, rfl⟩ | ⟨rfl, rfl⟩
      · simpa [isOp, lastReply, hop] using hr
      · simp [isOp, lastReply] at hr
    · refine reply_le hnet (by rw [h]; simp; rfl) fun hsrc hr => ?_
      -- the number reported is then one that `src` picked after the COLLECT
      have hpn : (s.node i).mon.acceptedPn = p := by
        simp only [isOp, decide_eq_true_eq] at hr
        exact hr.2
      rcases hR.accepted with h0 | ho | hput
      · have := hown.2.2
        omega
      · rw [hpn] at ho
        exact absurd (ho.1.symm.trans (hpj.trans hsrc.symm)) hne
      · rw [hpn] at hput
        have hlt := hN.put_before hput (m := c) (by rw [hpj, ← hsrc]; exact hcm) hop
        omega
  | begin src now c ms hnet hop _ _ =>
    rcases handleBegin_cases (s.node i).mon src c with ⟨h, _⟩ | ⟨hpn, _, h⟩
    · refine hnone ?_
      rw [h]
      exact nofun
    · refine reply_le hnet (by rw [h]; simp; rfl) fun _ hr => ?_
      rcases hqr with ⟨rfl, rfl⟩ | ⟨rfl, rfl⟩
      · simp [isOp] at hr
      · simpa [isOp, hop, hpn] using hr

/-- **A peon's steps** open no request of another monitor's number. -/
theorem inFlight_le {q r : Op} (hqr : Paired q r)
    (hN : Numbers s) (hR : Recalls s i (s.node i).mon) (hm : Move n lease s i ev s₁ o)
    (hes : es <+: o.effs) {j p : ℕ} (hji : j ≠ i) (hpj : p % 100 = j) (a : ℕ) :
    inFlight (s₁.performAll i es) q r p j a ≤ inFlight s q r p j a := by
  have hja : (s₁.performAll i es).net j a = s₁.net j a := by
    rw [performAll_net, if_neg hji]
  by_cases ha : a = i
  · subst ha
    have hij : (s₁.performAll a es).net a j = s.net a j ++ sendsTo j es := by
      rw [performAll_net, if_pos rfl, (hm.net_sublist a j).2 hji]
    have hpre : (sendsTo j es).Sublist (sendsTo j o.effs) := hes.sublist.filterMap _
    have hle := replies_le hqr hN hR hm hpj
    have hc : (sendsTo j es).countP (isOp r p) ≤ (sendsTo j o.effs).countP (isOp r p) := hpre.countP_le
    unfold inFlight
    rw [hja, hij, countP_append]
    omega
  · refine inFlight_mono ?_ ?_
    · rw [hja]
      exact (hm.net_sublist j a).1
    · rw [performAll_net, if_neg ha]
      exact (hm.net_sublist a j).1

end Paxos
end Ceph
