/-
# Monitor agreement

No two monitors hold different blobs for a version that both have committed.
This holds in every run, with losses, elections and crashes between any two
writes, as long as the source's shortcuts do no harm: `accepted_pn` is kept
in one place for the last promise and for the last accepted value, is not
stored by the leader that picks it, and LASTs are counted and compared
without their numbers and versions. `Faithful` says where, and `split_brain`
is a run that goes wrong without it.
-/
import Ceph.Mon.Leader

namespace Ceph
namespace Paxos

open List Function Cluster Out

variable {n lease : ℕ} {s s' : Cluster} {i : ℕ} {m : Mon}

/-- The conditions of a handler's effects, one after the other. -/
abbrev Allows (n i : ℕ) (s : Cluster) (es : List Effect) : Prop :=
  Chain (Cluster.perform i) (Allowed n i) s es

theorem Durable.performAll (h : Durable n s) {es : List Effect} (ha : Allows n i s es) :
    Durable n (s.performAll i es) :=
  Chain.inv (P := Durable n) (fun _ _ hP hF => hP.perform hF) ha h

theorem ahead_performAll {es : List Effect} (ha : Allows n i s es) : Ahead s (s.performAll i es) :=
  Chain.inv (P := Ahead s) (fun _ _ hP hF => hP.trans (ahead_perform hF)) ha (.refl s)

/-- Two clusters whose stores differ in nothing that is said here. -/
structure SameStores (s s' : Cluster) : Prop where
  lastPn : ∀ a, (s'.node a).store.lastPn = (s.node a).store.lastPn
  acceptedPn : ∀ a, (s'.node a).store.acceptedPn = (s.node a).store.acceptedPn
  lastCommitted : ∀ a, (s'.node a).store.lastCommitted = (s.node a).store.lastCommitted
  bl : ∀ a, (s'.node a).store.bl = (s.node a).store.bl
  under : ∀ a, (s'.node a).store.under = (s.node a).store.under
  log : s'.log = s.log

theorem SameStores.held (h : SameStores s s') (a : ℕ) : held s' a = held s a := by
  unfold Paxos.held
  rw [h.lastPn, h.acceptedPn]

theorem SameStores.vote (h : SameStores s s') {a V c : ℕ} {w : Blob} : Vote s' a V c w ↔ Vote s a V c w := by
  unfold Vote
  rw [h.log]

theorem SameStores.ahead (h : SameStores s s') : Ahead s s' := by
  refine ⟨⟨fun a => (h.held a).ge, h.vote.mpr, fun hv => .inl (h.vote.mp hv)⟩,
    fun a => (h.lastCommitted a).ge, ?_⟩
  rw [h.log]
  exact fun _ hx => hx

theorem SameStores.besides (h : SameStores s s') (i : ℕ) : Besides s s' i :=
  ⟨h.ahead, h.lastCommitted i, h.acceptedPn i, h.bl i, h.vote.mp⟩

/-- Memories do not matter, and messages may be lost. -/
theorem Durable.same (h : Durable n s) (hst : SameStores s s')
    (hnet : ∀ a b, (s'.net a b).Sublist (s.net a b)) : Durable n s' := by
  have hah := hst.ahead
  refine ⟨?_, ?_, ?_, ?_, ?_, ?_, ?_, ?_⟩
  · intro a b m hm
    rw [hst.log]
    exact h.sent ((hnet a b).subset hm)
  · intro a V c w hv
    obtain ⟨h1, h2, h3, h4, h5, h6, h7⟩ := h.vote (hst.vote.mp hv)
    rw [hst.held, hst.lastCommitted, hst.bl]
    exact ⟨h1, h2, h3, h4, h5, h6, hah.vote h7⟩
  · exact fun hv hv' => h.unique (hst.vote.mp hv) (hst.vote.mp hv')
  · intro V c w hv
    obtain ⟨h1, h2⟩ := h.safe (hst.vote.mp hv)
    exact ⟨h1.grows hah.grows, fun V' hV' => (h2 V' hV').grows hah.grows⟩
  · intro a V u hu
    rw [hst.under] at hu
    obtain ⟨b, h1, h2, h3⟩ := h.under hu
    rw [hst.bl]
    exact ⟨b, h1, hah.vote h2, fun c w hv => h3 c w (hst.vote.mp hv)⟩
  · intro a v h0 hv
    rw [hst.lastCommitted] at hv
    obtain ⟨b, h1, h2⟩ := h.committed h0 hv
    rw [hst.bl]
    exact ⟨b, h1, h2.grows hah.grows⟩
  · intro a
    rw [hst.bl]
    exact h.zero a
  · intro a j m hm
    rw [hst.log] at hm
    exact (h.msg hm).mono hah

theorem sameStores_net (hnode : s'.node = s.node) (hlog : s'.log = s.log) : SameStores s s' := by
  refine ⟨?_, ?_, ?_, ?_, ?_, hlog⟩ <;> rw [hnode] <;> exact fun _ => rfl

theorem sameStores_become (s : Cluster) (i : ℕ) (m : Mon) (up : Bool) : SameStores s (s.become i m up) := by
  have hst : ∀ a, ((s.become i m up).node a).store = (s.node a).store := by
    intro a
    by_cases ha : a = i
    · subst ha; rw [become_node]
    · rw [become_node_ne i s ha]
  refine ⟨?_, ?_, ?_, ?_, ?_, rfl⟩ <;> exact fun a => by rw [hst]

theorem sameStores_restart (s : Cluster) (i : ℕ) : SameStores s (s.restart i) := by
  refine ⟨?_, ?_, ?_, ?_, ?_, rfl⟩ <;> intro a <;> by_cases ha : a = i <;>
    first | (subst ha; rw [restart_node]; rfl) | rw [restart_node_ne i s ha]

theorem vote_performAll {es : List Effect} {a V c : ℕ} {w : Blob} :
    Vote (s.performAll i es) a V c w ↔ Vote s a V c w ∨ (a = i ∧ .putBl V w (some c) ∈ es) :=
  mem_performAll_log i s es

/-! ### Effects that touch neither numbers nor versions -/

theorem allows_quiet {es : List Effect} (h : ∀ e ∈ es, e.Quiet) : Allows n i s es := by
  induction es generalizing s with
  | nil => trivial
  | cons e es ih =>
    refine ⟨?_, ih fun e' he' => h e' (mem_cons_of_mem e he')⟩
    have hq := h e mem_cons_self
    cases e with
    | send j m => rcases hq with hq | hq <;> simp [Allowed, MsgOk, hq]
    | finishContexts w b => trivial
    | _ => exact hq.elim

theorem besides_outward {es : List Effect} (ha : Allows n i s es) (h : ∀ e ∈ es, e.Outward) :
    Besides s (s.performAll i es) i := by
  have hst := outward_performAll (s := s) (i := i) h
  refine ⟨ahead_performAll ha, by rw [hst], by rw [hst], by rw [hst], fun hv => ?_⟩
  rcases vote_performAll.mp hv with hv | ⟨_, hmem⟩
  · exact hv
  · exact (h _ hmem).elim

/-- Other monitors' effects do not concern `j`. -/
theorem besides_other {j : ℕ} (hji : j ≠ i) {es : List Effect} (ha : Allows n i s es) :
    Besides s (s.performAll i es) j := by
  have hnode := performAll_node_ne i s es hji
  refine ⟨ahead_performAll ha, by rw [hnode], by rw [hnode], by rw [hnode], fun hv => ?_⟩
  rcases vote_performAll.mp hv with hv | ⟨heq, _⟩
  · exact hv
  · exact absurd heq hji

theorem allows_bcast {ds : List ℕ} {M : MMonPaxos} (h : ∀ d ∈ ds, MsgOk n s i d M) :
    Allows n i s (ds.map fun d => .send d M) := by
  induction ds generalizing s with
  | nil => trivial
  | cons d ds ih =>
    have hd : Allowed n i s (.send d M) := h d mem_cons_self
    refine ⟨hd, ih fun d' hd' => ?_⟩
    exact (h d' (mem_cons_of_mem d hd')).mono (ahead_perform hd)

/-! ### Installing decided versions -/

/-- The writes of decided versions. -/
def installs (ws : List (ℕ × Blob)) : List Effect := ws.map fun p => .putBl p.1 p.2 none

theorem allows_installs {ws : List (ℕ × Blob)} (hch : ∀ p ∈ ws, Chosen n s p.1 p.2)
    (hlt : ∀ p ∈ ws, (s.node i).store.lastCommitted < p.1) : Allows n i s (installs ws) := by
  induction ws generalizing s with
  | nil => trivial
  | cons p ws ih =>
    have hp : Allowed n i s (.putBl p.1 p.2 none) := ⟨hlt p mem_cons_self, hch p mem_cons_self⟩
    refine ⟨hp, ih (fun q hq => ?_) fun q hq => ?_⟩
    · exact (hch q (mem_cons_of_mem p hq)).grows (grows_perform hp)
    · rw [perform_store]
      exact hlt q (mem_cons_of_mem p hq)

theorem installs_store (ws : List (ℕ × Blob)) : ∀ st : Store,
    (st.performAll (installs ws)).lastPn = st.lastPn ∧
    (st.performAll (installs ws)).acceptedPn = st.acceptedPn ∧
    (st.performAll (installs ws)).lastCommitted = st.lastCommitted ∧
    ∀ v, (∀ p ∈ ws, p.1 ≠ v) → (st.performAll (installs ws)).bl v = st.bl v ∧
      (st.performAll (installs ws)).under v = st.under v := by
  induction ws with
  | nil => exact fun st => ⟨rfl, rfl, rfl, fun _ _ => ⟨rfl, rfl⟩⟩
  | cons p ws ih =>
    intro st
    obtain ⟨h1, h2, h3, h4⟩ := ih (st.perform (.putBl p.1 p.2 none))
    refine ⟨h1, h2, h3, fun v hv => ?_⟩
    obtain ⟨h5, h6⟩ := h4 v fun q hq => hv q (mem_cons_of_mem p hq)
    have hne : v ≠ p.1 := (hv p mem_cons_self).symm
    exact ⟨h5.trans (update_of_ne hne _ _), h6.trans (update_of_ne hne _ _)⟩

/-- Consecutive versions from `lo` on are then all there. -/
theorem installs_bl (ws : List (ℕ × Blob)) : ∀ (lo : ℕ) (st : Store),
    (∀ k (h : k < ws.length), (ws.get ⟨k, h⟩).1 = lo + k) → ∀ u, lo ≤ u → u < lo + ws.length →
      ∃ b, (st.performAll (installs ws)).bl u = some b ∧ (u, b) ∈ ws := by
  induction ws with
  | nil =>
    intro lo st _ u h1 h2
    simp only [length_nil] at h2
    omega
  | cons p ws ih =>
    intro lo st hnum u h1 h2
    have hp : p.1 = lo := hnum 0 (Nat.zero_lt_succ _)
    have htail : ∀ k (h : k < ws.length), (ws.get ⟨k, h⟩).1 = lo + 1 + k := by
      intro k hk
      have := hnum (k + 1) (Nat.succ_lt_succ hk)
      simp only [get_eq_getElem, getElem_cons_succ] at this ⊢
      omega
    by_cases hu : u = lo
    · subst hu
      have hnot : ∀ q ∈ ws, q.1 ≠ u := by
        intro q hq
        obtain ⟨k, hk, rfl⟩ := mem_iff_getElem.mp hq
        have := htail k hk
        simp only [get_eq_getElem] at this
        omega
      refine ⟨p.2, ?_, ?_⟩
      · refine ((installs_store ws (st.perform (.putBl p.1 p.2 none))).2.2.2 u hnot).1.trans ?_
        rw [← hp]
        exact update_self ..
      · rw [← hp]
        exact mem_cons_self
    · rw [length_cons] at h2
      obtain ⟨b, hb, hmem⟩ := ih (lo + 1) (st.perform (.putBl p.1 p.2 none)) htail u (by omega) (by omega)
      exact ⟨b, hb, mem_cons_of_mem p hmem⟩

/-- What installing decided versions up to `v` changes for `i`. -/
structure Installed (s s' : Cluster) (i v : ℕ) : Prop where
  ahead : Ahead s s'
  lastCommitted : (s'.node i).store.lastCommitted = v
  lastPn : (s'.node i).store.lastPn = (s.node i).store.lastPn
  acceptedPn : (s'.node i).store.acceptedPn = (s.node i).store.acceptedPn
  above : ∀ u, v < u → (s'.node i).store.bl u = (s.node i).store.bl u ∧
    (s'.node i).store.under u = (s.node i).store.under u
  votes : ∀ {V c w}, Vote s' i V c w → Vote s i V c w

/-- **Decided versions are installed**, and then `last_committed` moves. -/
theorem allows_install {ws : List (ℕ × Blob)} (hch : ∀ p ∈ ws, Chosen n s p.1 p.2)
    (hnum : ∀ k (h : k < ws.length), (ws.get ⟨k, h⟩).1 = (s.node i).store.lastCommitted + 1 + k) :
    let es := installs ws ++ [.putLastCommitted ((s.node i).store.lastCommitted + ws.length)]
    Allows n i s es ∧
      Installed s (s.performAll i es) i ((s.node i).store.lastCommitted + ws.length) := by
  intro es
  have hver : ∀ p ∈ ws, (s.node i).store.lastCommitted < p.1 ∧
      p.1 ≤ (s.node i).store.lastCommitted + ws.length := by
    intro p hp
    obtain ⟨k, hk, rfl⟩ := mem_iff_getElem.mp hp
    have := hnum k hk
    simp only [get_eq_getElem] at this
    omega
  have h1 : Allows n i s (installs ws) := allows_installs hch fun p hp => (hver p hp).1
  obtain ⟨hlp, hap, hlc, hrest⟩ := installs_store ws (s.node i).store
  have hstore := performAll_store i s (installs ws)
  have h2 : Allowed n i (s.performAll i (installs ws))
      (.putLastCommitted ((s.node i).store.lastCommitted + ws.length)) := by
    unfold Allowed
    rw [hstore, hlc]
    refine ⟨Nat.le_add_right _ _, fun u hu hle => ?_⟩
    obtain ⟨b, hb, hmem⟩ := installs_bl ws _ (s.node i).store hnum u hu (by omega)
    exact ⟨b, hb, (hch (u, b) hmem).grows (ahead_performAll h1).grows⟩
  have hall : Allows n i s es := (chain_append _ _ s).mpr ⟨h1, h2, trivial⟩
  refine ⟨hall, ahead_performAll hall, ?_, ?_, ?_, ?_, ?_⟩
  · rw [performAll_append, performAll_cons, performAll_nil, perform_store]
    rfl
  · rw [performAll_append, performAll_cons, performAll_nil, perform_store, hstore]
    exact hlp
  · rw [performAll_append, performAll_cons, performAll_nil, perform_store, hstore]
    exact hap
  · intro u hu
    rw [performAll_append, performAll_cons, performAll_nil, perform_store, hstore]
    refine hrest u fun p hp => ?_
    have := (hver p hp).2
    omega
  · intro V c w hv
    rcases vote_performAll.mp hv with hv | ⟨_, hmem⟩
    · exact hv
    · rcases mem_append.mp hmem with hmem | hmem
      · obtain ⟨p, _, hp⟩ := List.mem_map.mp hmem
        cases hp
      · rw [mem_singleton] at hmem
        cases hmem

/-! ### The handlers of a peon -/

/-- The value stored for the next version, if there is one, was accepted under
`acc`. -/
def Known (st : Store) (lc acc : ℕ) : Prop := (st.bl (lc + 1)).isSome → st.under (lc + 1) = some acc

instance (st : Store) (lc acc : ℕ) : Decidable (Known st lc acc) := inferInstanceAs (Decidable (_ → _))

/-- **What a LAST says**, but for the promise: `m` is as in the store, `t` is the
cluster when it is sent. -/
theorem lastOk_reply (hD : Durable n s) (hlc : m.lastCommitted = (s.node i).store.lastCommitted)
    (hknown : Known (s.node i).store m.lastCommitted m.acceptedPn) {src : ℕ} {c : MMonPaxos}
    (hc : c.lastCommitted ≤ (s.node src).store.lastCommitted) {t : Cluster} (hah : Ahead s t)
    (hvotes : ∀ {V c w}, Vote t i V c w → Vote s i V c w) {pn pnFrom : ℕ} (hpn : pn ≤ held t i) :
    LastOk n t i src { lastReply (s.node i).store c m with pn := pn, pnFrom := pnFrom } := by
  have hval : ∀ v, c.lastCommitted < v → v ≤ m.lastCommitted → ∀ b, (s.node i).store.bl v = some b →
      MMonPaxos.value { lastReply (s.node i).store c m with pn := pn, pnFrom := pnFrom } v = b := by
    intro v h1 h2 b hbl
    show (((storedAbove (s.node i).store c.lastCommitted m.lastCommitted) ++ _).lookup v).getD [] = b
    rw [lookup_storedAbove _ _ _ _ h1 h2 hbl]
    rfl
  refine ⟨hpn, ?_, ?_, ?_⟩
  · intro v hv hle
    have hv1 : c.lastCommitted < v := lt_of_le_of_lt (hc.trans (hah.lastCommitted src)) hv
    obtain ⟨b, hbl, hch⟩ := hD.committed (by omega) (hle.trans hlc.le)
    rw [hval v hv1 hle b hbl]
    exact hch.grows hah.grows
  · intro V k w hv hk
    have hv := hvotes hv
    obtain ⟨_, _, _, _, hV, hsome, _⟩ := hD.vote hv
    refine ⟨by rw [← hlc] at hV; exact hV, fun hVe => ?_⟩
    have hVe : V = m.lastCommitted + 1 := hVe
    subst hVe
    obtain ⟨_, _, _, hmax⟩ := hD.under (hknown hsome)
    show k ≤ if ((s.node i).store.bl (m.lastCommitted + 1)).isSome then m.acceptedPn else 0
    rw [if_pos hsome]
    exact hmax k w hv
  · intro hu
    have hsome : ((s.node i).store.bl (m.lastCommitted + 1)).isSome := by
      by_contra hnone
      exact hu (if_neg hnone)
    obtain ⟨b, hbl, hvote, _⟩ := hD.under (hknown hsome)
    have hupn : (lastReply (s.node i).store c m).uncommittedPn = m.acceptedPn := if_pos hsome
    have hv : MMonPaxos.value { lastReply (s.node i).store c m with pn := pn, pnFrom := pnFrom }
        (m.lastCommitted + 1) = b := by
      show (((storedAbove (s.node i).store c.lastCommitted m.lastCommitted) ++ _).lookup
        (m.lastCommitted + 1)).getD [] = b
      rw [lookup_storedAbove_ne _ _ _ _ (Nat.lt_succ_self _), hbl]
      simp
    rw [hupn]
    exact hah.vote (by rw [← hv] at hvote; exact hvote)

theorem Durable.received (h : Durable n s) (src : ℕ) : Durable n (s.received src i) :=
  h.same (sameStores_net rfl rfl) (received_sublist src)

theorem besides_received (src : ℕ) : Besides s (s.received src i) i := by
  have h : SameStores s (s.received src i) := sameStores_net rfl rfl
  exact h.besides i

/-- **A COLLECT is answered.** -/
theorem handleCollect_ok (hD : Durable n s) (hok : NodeOk n s i m) (hp : m.role = .peon)
    (hknown : Known (s.node i).store m.lastCommitted m.acceptedPn) {src : ℕ} {c : MMonPaxos}
    (hc : c.lastCommitted ≤ (s.node src).store.lastCommitted) :
    Allows n i s (handleCollect (s.node i).store src c m).effs ∧
      ((handleCollect (s.node i).store src c m).ok = true →
        NodeOk n (s.performAll i (handleCollect (s.node i).store src c m).effs) i
          (handleCollect (s.node i).store src c m).st) := by
  have hne : Role.peon ≠ .leader := by decide
  have hrec : State.recovering ≠ .updating := by decide
  rcases handleCollect_cases (s.node i).store m src c hp with h | ⟨hlt, h⟩ | ⟨_, h⟩
  · rw [h]
    exact ⟨trivial, fun h0 => by cases h0⟩
  · rw [h]
    have h1 : Allowed n i s (.putAcceptedPn c.pn) := hok.stored.trans hlt.le
    have hheld : c.pn ≤ held (s.perform i (.putAcceptedPn c.pn)) i := by
      unfold held
      rw [perform_store]
      exact le_max_right _ _
    have h2 : Allowed n i (s.perform i (.putAcceptedPn c.pn))
        (.send src { lastReply (s.node i).store c m with pn := c.pn, pnFrom := c.pnFrom }) := by
      refine lastOk_reply hD hok.lastCommitted hknown hc (ahead_perform h1) (fun hv => ?_) hheld
      rcases vote_perform.mp hv with hv | ⟨_, heq⟩
      · exact hv
      · cases heq
    refine ⟨⟨h1, h2, trivial⟩, fun _ => ?_⟩
    refine ⟨?_, ?_, ?_, fun _ hs => absurd hs hrec, fun hl => absurd (hp.symm.trans hl) hne⟩
    · rw [performAll_store]
      exact hok.lastCommitted
    · rw [performAll_store]
      exact le_rfl
    · exact hheld.trans ((ahead_perform h2).grows.held i)
  · rw [h]
    have h1 : Allowed n i s
        (.send src { lastReply (s.node i).store c m with pn := m.acceptedPn, pnFrom := m.acceptedPnFrom }) :=
      lastOk_reply hD hok.lastCommitted hknown hc (.refl s) (fun hv => hv) hok.held
    refine ⟨⟨h1, trivial⟩, fun _ => ?_⟩
    have ha : Allows n i s [_] := ⟨h1, trivial⟩
    have h' := hok.besides (besides_outward ha (by simp [Effect.Outward]))
    exact ⟨h'.lastCommitted, h'.stored, h'.held, fun _ hs => absurd hs hrec,
      fun hl => absurd (hp.symm.trans hl) hne⟩

/-- **A BEGIN is accepted.** The number held is that of the BEGIN, as `last_pn`
is no larger. -/
theorem handleBegin_ok (hD : Durable n s) (hok : NodeOk n s i m) {src : ℕ} {b : MMonPaxos}
    (hvote : Vote s src (b.lastCommitted + 1) b.pn (b.value (b.lastCommitted + 1)))
    (hsrc : src ≠ i) (hmod : b.pn % 100 = src) (hnl : m.role = .leader → m.acceptedPn % 100 = i)
    (hlast : b.pn = m.acceptedPn → (s.node i).store.lastPn ≤ b.pn) :
    Allows n i s (handleBegin src b m).effs ∧
      NodeOk n (s.performAll i (handleBegin src b m).effs) i (handleBegin src b m).st := by
  rcases handleBegin_cases m src b with ⟨h, h'⟩ | ⟨hpn, hlc, h⟩
  · rw [h, h']
    exact ⟨trivial, hok⟩
  rw [h]
  obtain ⟨hw, hpos, _, _, _, _, _⟩ := hD.vote hvote
  have hheld : held s i = m.acceptedPn := by
    refine le_antisymm (max_le ?_ hok.stored) hok.held
    rw [← hpn]
    exact hlast hpn
  have hmod' : m.acceptedPn % 100 = src := by rw [← hpn]; exact hmod
  have hvote' : Vote s src (m.lastCommitted + 1) m.acceptedPn (b.value (m.lastCommitted + 1)) := by
    rw [← hlc, ← hpn]; exact hvote
  have h1 : Allowed n i s (.putBl (m.lastCommitted + 1) (b.value (m.lastCommitted + 1)) (some m.acceptedPn)) := by
    refine ⟨by rw [hok.lastCommitted], by rw [← hlc]; exact hw, by rw [← hpn]; exact hpos, hheld, ?_, ?_⟩
    · intro _
      rw [hmod']
      exact hvote'
    · intro heq
      exact absurd (hmod'.symm.trans heq) hsrc
  have h2 : Allowed n i (s.perform i (.putBl (m.lastCommitted + 1) (b.value (m.lastCommitted + 1))
      (some m.acceptedPn))) (.send src
        { op := .accept, epoch := m.monEpoch, pn := m.acceptedPn, lastCommitted := m.lastCommitted }) :=
    ⟨_, vote_perform.mpr (.inr ⟨rfl, rfl⟩)⟩
  refine ⟨⟨h1, h2, trivial⟩, ?_, ?_, ?_, ?_, ?_⟩
  · rw [performAll_store]
    exact hok.lastCommitted
  · rw [performAll_store]
    exact hok.stored
  · exact hok.held.trans (((ahead_perform h1).trans (ahead_perform h2)).grows.held i)
  · intro _ _ heq
    exact hsrc (hmod'.symm.trans heq)
  · intro hl
    exact absurd (hmod'.symm.trans (hnl hl)) hsrc

/-- **A COMMIT is stored.** -/
theorem handleCommit_ok (hok : NodeOk n s i m) (hp : m.role = .peon) {c : MMonPaxos}
    (hc : ∀ p ∈ c.values, Chosen n s p.1 p.2) :
    Allows n i s (handleCommit c m).effs ∧ ((handleCommit c m).ok = true →
      NodeOk n (s.performAll i (handleCommit c m).effs) i (handleCommit c m).st) := by
  have hne : Role.peon ≠ .leader := by decide
  obtain ⟨ws, hpre, hnum, hst, heffs⟩ := handleCommit_spec m c hp
  have hch : ∀ p ∈ ws, Chosen n s p.1 p.2 := fun p hp => hc p (hpre.subset hp)
  rw [hok.lastCommitted] at hnum
  obtain ⟨hall, hin⟩ := allows_install (n := n) (i := i) hch hnum
  rcases heffs with ⟨heffs, hfail⟩ | heffs
  · rw [heffs]
    exact ⟨hall.of_prefix (prefix_append _ _), fun h0 => absurd h0 (by rw [hfail]; decide)⟩
  · rw [heffs, hst, hok.lastCommitted]
    refine ⟨hall, fun _ => ⟨hin.lastCommitted.symm, ?_, ?_, hok.peon, fun hl => absurd (hp.symm.trans hl) hne⟩⟩
    · exact hin.acceptedPn.le.trans hok.stored
    · exact hok.held.trans (hin.ahead.grows.held i)

/-! ### The handlers of a leader -/

/-- **Committed values are exchanged** with the sender of a LAST. -/
theorem learn_ok (hD : Durable n s) (hlc : m.lastCommitted = (s.node i).store.lastCommitted) (src : ℕ)
    {last : MMonPaxos} (hnews : ∀ v, (s.node i).store.lastCommitted < v → v ≤ last.lastCommitted →
      Chosen n s v (last.value v)) :
    let es := shared (s.node i).store src last m ++ learned last m
    Allows n i s es ∧ Installed s (s.performAll i es) i (max m.lastCommitted last.lastCommitted) ∧
      ((s.performAll i es).node i).store = (s.node i).store.performAll (learned last m) := by
  intro es
  rcases lt_trichotomy last.lastCommitted m.lastCommitted with hlt | heq | hgt
  · -- the leader has more
    have hl : learned last m = [] := if_neg (by omega)
    have hsend : Allows n i s (shared (s.node i).store src last m) := by
      unfold shared
      rw [if_pos hlt]
      refine ⟨?_, trivial⟩
      intro p hp
      obtain ⟨v, hv, rfl⟩ := List.mem_map.mp hp
      rw [mem_range'_1] at hv
      obtain ⟨b, hb, hch⟩ := hD.committed (a := i) (v := v) (by omega) (by omega)
      rw [hb]
      exact hch
    have hout : ∀ e ∈ shared (s.node i).store src last m, e.Outward := by
      intro e he
      unfold shared at he
      rw [if_pos hlt, mem_singleton] at he
      subst he
      trivial
    have hes : es = shared (s.node i).store src last m := by
      show shared _ _ _ _ ++ learned last m = _
      rw [hl, append_nil]
    have hb := besides_outward hsend hout
    have hst := outward_performAll (s := s) (i := i) hout
    rw [hes, hl, max_eq_left hlt.le]
    refine ⟨hsend, ⟨hb.ahead, ?_, ?_, hb.acceptedPn, ?_, hb.votes⟩, hst⟩
    · rw [hst, hlc]
    · rw [hst]
    · intro u _
      rw [hst]
      exact ⟨rfl, rfl⟩
  · have hl : learned last m = [] := if_neg (by omega)
    have hs : shared (s.node i).store src last m = [] := if_neg (by omega)
    have hes : es = [] := by
      show shared _ _ _ _ ++ learned last m = _
      rw [hl, hs]
      rfl
    rw [hes, hl, heq, max_self]
    exact ⟨trivial, ⟨.refl s, hlc.symm, rfl, rfl, fun _ _ => ⟨rfl, rfl⟩, fun h => h⟩, rfl⟩
  · -- the peon has more
    have hs : shared (s.node i).store src last m = [] := if_neg (by omega)
    set ws := (List.range' (m.lastCommitted + 1) (last.lastCommitted - m.lastCommitted)).map
      fun v => (v, last.value v) with hws
    have hlen : (s.node i).store.lastCommitted + ws.length = last.lastCommitted := by
      rw [hws, length_map, length_range']
      omega
    have hl : learned last m =
        installs ws ++ [.putLastCommitted ((s.node i).store.lastCommitted + ws.length)] := by
      rw [hlen, hws]
      unfold learned installs
      rw [if_pos hgt, List.map_map]
      rfl
    have hes : es = learned last m := by
      show shared _ _ _ _ ++ learned last m = _
      rw [hs]
      rfl
    have hch : ∀ p ∈ ws, Chosen n s p.1 p.2 := by
      intro p hp
      obtain ⟨v, hv, rfl⟩ := List.mem_map.mp hp
      rw [mem_range'_1] at hv
      exact hnews v (by omega) (by omega)
    have hnum : ∀ k (h : k < ws.length),
        (ws.get ⟨k, h⟩).1 = (s.node i).store.lastCommitted + 1 + k := by
      intro k h
      simp only [hws, get_eq_getElem, getElem_map, getElem_range', ← hlc]
      omega
    obtain ⟨hall, hin⟩ := allows_install (n := n) (i := i) hch hnum
    rw [hes, max_eq_right hgt.le]
    rw [← hl, hlen] at hin
    rw [← hl] at hall
    exact ⟨hall, hin, performAll_store i s _⟩

/-- **A new collect.** The value found, if there is one, was accepted under the
number with which it is reported. -/
theorem collect_ok (hD : Durable n s) (hlc : m.lastCommitted = (s.node i).store.lastCommitted)
    (hacc : (s.node i).store.acceptedPn ≤ m.acceptedPn) (hlast : m.lastPn = (s.node i).store.lastPn)
    (hl : m.role = .leader) (hknown : Known (s.node i).store m.lastCommitted m.acceptedPn) (oldpn : ℕ) :
    Allows n i s (collect n i (s.node i).store oldpn m).effs ∧
      NodeOk n (s.performAll i (collect n i (s.node i).store oldpn m).effs) i
        (collect n i (s.node i).store oldpn m).st := by
  obtain ⟨m', hc, h⟩ := collect_spec n i (s.node i).store m oldpn hl
  set p := pickedPn i oldpn m with hp
  obtain ⟨hlt1, hlt2, _⟩ := lt_pickedPn i oldpn m
  have hheld : held s i < p := max_lt (hlast ▸ hlt1) (lt_of_le_of_lt hacc hlt2)
  rw [h]
  have h1 : Allowed n i s (.putLastPn p) := (hlast ▸ hlt1.le : (s.node i).store.lastPn ≤ p)
  set t := s.perform i (.putLastPn p) with ht
  have htlc : (t.node i).store.lastCommitted = (s.node i).store.lastCommitted := by
    rw [ht, perform_store]
    rfl
  have h2 : Allows n i t ((others n i m.quorum).map fun d => .send d (collectMsg m p)) := by
    refine allows_bcast fun d _ => ?_
    show m.lastCommitted ≤ (t.node i).store.lastCommitted
    rw [htlc, hlc]
  have hall : Allows n i s (.putLastPn p :: (others n i m.quorum).map fun d => .send d (collectMsg m p)) :=
    ⟨h1, h2⟩
  have hb := besides_outward h2 (outward_bcast _ _)
  set t' := s.performAll i (.putLastPn p :: (others n i m.quorum).map fun d => .send d (collectMsg m p))
    with ht'
  have hvotes : ∀ {V c w}, Vote t' i V c w → Vote s i V c w := by
    intro V c w hv
    rcases vote_perform.mp (hb.votes hv) with hv | ⟨_, heq⟩
    · exact hv
    · cases heq
  have hheld' : p ≤ held t' i := by
    refine le_trans ?_ (hb.ahead.grows.held i)
    show p ≤ held t i
    unfold held
    rw [ht, perform_store]
    exact le_max_left _ _
  have hne : Role.leader ≠ .peon := by decide
  refine ⟨hall, ?_, ?_, ?_, ?_, fun _ => ⟨fun _ => ⟨?_, ?_, ?_, ?_⟩, ?_, ?_, ?_⟩⟩
  · rw [emit_st, emit_effs, hc.lastCommitted, hlc]
    exact (htlc.symm.trans hb.lastCommitted.symm)
  · rw [emit_st, emit_effs, hc.acceptedPn]
    refine le_trans (le_of_eq hb.acceptedPn) ?_
    rw [ht, perform_store]
    exact hacc.trans hlt2.le
  · rw [emit_st, emit_effs, hc.acceptedPn]
    exact hheld'
  · intro hpeon
    exact absurd ((hc.role.trans hl).symm.trans hpeon) hne
  · -- only the leader itself is counted
    intro a ha
    rw [emit_st, hc.lastsFrom] at ha
    obtain rfl : a = i := ha.resolve_right not_mem_nil
    rw [emit_st, hc.acceptedPn, hc.lastCommitted]
    refine ⟨hheld', fun V c w hv _ => ?_⟩
    have hv := hvotes hv
    obtain ⟨_, _, _, _, hV, hsome, _⟩ := hD.vote hv
    refine ⟨by rw [hlc]; exact hV, fun hVe => ?_⟩
    subst hVe
    obtain ⟨_, _, _, hmax⟩ := hD.under (hknown hsome)
    rcases hc.uncommitted with ⟨v, _, huv, hupn, _⟩ | ⟨hnone, _⟩
    · rw [huv, hupn]
      exact ⟨hmax c w hv, fun hlt => absurd hlt (lt_irrefl _)⟩
    · rw [hnone] at hsome
      exact absurd hsome (by decide)
  · rw [emit_st, hc.lastCommitted]
    rcases hc.uncommitted with ⟨v, _, huv, _⟩ | ⟨_, huv, _⟩
    · exact huv.le
    · rw [huv]
      exact Nat.zero_le _
  · rw [emit_st]
    rcases hc.uncommitted with ⟨v, hbl, huv, hupn, hval⟩ | ⟨_, huv, hupn, _⟩
    · obtain ⟨b, hb', hvote, _⟩ := hD.under (hknown (by rw [hbl]; rfl))
      obtain rfl : b = v := Option.some.inj (hb'.symm.trans hbl)
      refine .inr ⟨i, ?_⟩
      rw [huv, hupn, hval]
      exact (ahead_performAll hall).vote hvote
    · exact .inl ⟨hupn, huv⟩
  · rw [emit_st, hc.acceptedPn]
    intro V w hv
    have := (hD.vote (hvotes hv)).2.2.1
    omega
  · intro hs
    rw [emit_st, hc.state] at hs
    cases hs
  · intro hs
    rw [emit_st, hc.state] at hs
    cases hs
  · intro hs
    rw [emit_st, hc.state] at hs
    cases hs

theorem Leading.held_eq (hL : Leading s i m) (hok : Tracks s i m)
    (hlast : m.lastPn = (s.node i).store.lastPn) : held s i = m.acceptedPn := by
  refine le_antisymm (max_le ?_ hok.stored) hok.held
  rw [← hlast]
  exact hL.picked.ge

/-- **A value is proposed.** -/
theorem begin_ok (hn : 1 < n) (hok : Tracks s i m)
    (hL : Leading s i m) (hlast : m.lastPn = (s.node i).store.lastPn) (hq : IsQuorum n i m.quorum)
    {v : Blob} (hv : v ≠ []) (hunused : ∀ w, ¬ Vote s i (m.lastCommitted + 1) m.acceptedPn w)
    (hsafe : Safe n s (m.lastCommitted + 1) m.acceptedPn v)
    (hfree : ∀ V, m.lastCommitted + 1 < V → Free n s V m.acceptedPn) :
    Allows n i s (begin n i v m).effs ∧ ((begin n i v m).ok = true →
      NodeOk n (s.performAll i (begin n i v m).effs) i (begin n i v m).st) := by
  rcases begin_cases n i m v with ⟨m', h⟩ | ⟨h1, _⟩ | ⟨_, hl, _, _, _, h⟩
  · rw [h]
    exact ⟨trivial, fun h0 => by cases h0⟩
  · exact absurd h1 (hq.card_ne_one hn)
  rw [h]
  set e : Effect := .putBl (m.lastCommitted + 1) v (some m.acceptedPn) with he
  have h1 : Allowed n i s e := by
    have hpos := hL.own.2.2
    refine ⟨by rw [hok.lastCommitted], hv, by omega, hL.held_eq hok hlast, ?_, ?_⟩
    · exact fun hne => absurd hL.own.1 hne
    · exact fun _ => ⟨hunused, hsafe, hfree⟩
  set t := s.perform i e with ht
  have hvote : Vote t i (m.lastCommitted + 1) m.acceptedPn v := vote_perform.mpr (.inr ⟨rfl, rfl⟩)
  have h2 : Allows n i t ((others n i m.quorum).map fun p => .send p (beginMsg v m)) := by
    refine allows_bcast fun d _ => ?_
    show Vote t i (m.lastCommitted + 1) m.acceptedPn ((beginMsg v m).value (m.lastCommitted + 1))
    have hval : (beginMsg v m).value (m.lastCommitted + 1) = v := by simp [beginMsg, MMonPaxos.value]
    rw [hval]
    exact hvote
  have hb := besides_outward h2 (outward_bcast _ _)
  have hne : Role.leader ≠ .peon := by decide
  refine ⟨⟨h1, h2⟩, fun _ => ⟨?_, ?_, ?_, fun hp => absurd (hl.symm.trans hp) hne, fun _ => ?_⟩⟩
  · refine hok.lastCommitted.trans (Eq.trans ?_ hb.lastCommitted.symm)
    rw [ht, perform_store]
    rfl
  · refine le_trans (le_of_eq hb.acceptedPn) ?_
    rw [ht, perform_store]
    exact hok.stored
  · exact hok.held.trans (((ahead_perform h1).trans hb.ahead).grows.held i)
  · have hprop : Proposed n t i
        { m with state := .updating, accepted := {i}, newValue := v, acceptTimeoutEvent := true } := by
      refine ⟨hvote, ?_, fun V hV => (hfree V hV).grows (grows_perform h1), fun a ha => ?_⟩
      · rw [ht, perform_store]
        exact update_self ..
      · rw [Finset.mem_singleton] at ha
        subst ha
        exact ⟨v, hvote⟩
    exact ⟨fun hs => (by cases hs), fun hs => (by cases hs), fun _ _ => hprop.besides hb,
      fun _ h0 => absurd h0 hv⟩

/-- The value a LAST reports is older than the leader's last version, or ties with
an older one the leader has found: it would be passed over. -/
def Tie (last : MMonPaxos) (m : Mon) : Prop :=
  last.uncommittedPn ≠ 0 ∧ last.uncommittedPn = m.uncommittedPn ∧ m.uncommittedV < last.lastCommitted + 1

instance (last : MMonPaxos) (m : Mon) : Decidable (Tie last m) := inferInstanceAs (Decidable (_ ∧ _ ∧ _))

theorem countLast_found (src : ℕ) (last : MMonPaxos) (m : Mon) :
    (last.uncommittedPn ≠ 0 ∧ m.uncommittedPn < last.uncommittedPn ∧
      (countLast src last m).uncommittedV = last.lastCommitted + 1 ∧
      (countLast src last m).uncommittedPn = last.uncommittedPn ∧
      (countLast src last m).uncommittedValue = last.value (last.lastCommitted + 1)) ∨
    ((last.uncommittedPn = 0 ∨ last.uncommittedPn ≤ m.uncommittedPn) ∧
      (countLast src last m).uncommittedV = m.uncommittedV ∧
      (countLast src last m).uncommittedPn = m.uncommittedPn ∧
      (countLast src last m).uncommittedValue = m.uncommittedValue) := by
  unfold countLast
  dsimp only
  split_ifs with h
  · exact .inl ⟨h.1, h.2, rfl, rfl, rfl⟩
  · refine .inr ⟨?_, rfl, rfl, rfl⟩
    by_contra hne
    push Not at hne
    exact h ⟨hne.1, hne.2⟩

/-- **A LAST is counted.** -/
theorem recovering_countLast (hD : Durable n s) (h : Recovering s i m) {src : ℕ} {last : MMonPaxos}
    (hlast : LastOk n s src i last) (hpn : last.pn = m.acceptedPn) (htie : ¬ Tie last m) {t : Cluster}
    (hin : Installed s t i (max m.lastCommitted last.lastCommitted)) :
    Recovering t i (countLast src last (withLearned last m)) := by
  obtain ⟨_, hacc, _, _, hlc, _, _, hfrom, _⟩ := countLast_kept src last (withLearned last m)
  have hlc : (countLast src last (withLearned last m)).lastCommitted =
      max m.lastCommitted last.lastCommitted := hlc
  have hfound := countLast_found src last (withLearned last m)
  refine ⟨?_, ?_, ?_, ?_⟩
  · intro a ha
    rw [hfrom, mem_cons] at ha
    rw [hacc, hlc]
    by_cases hsrc : a = src
    · subst hsrc
      refine ⟨hpn ▸ hlast.promise.trans (hin.ahead.grows.held a), fun V c w hv hc => ?_⟩
      have hv : Vote s a V c w := hin.ahead.vote_of_lt hv (hc.trans_le (hpn ▸ hlast.promise))
      obtain ⟨hV, hmax⟩ := hlast.votes V c w hv (hpn ▸ hc)
      refine ⟨by omega, fun hVe => ?_⟩
      have hVl : V = last.lastCommitted + 1 := by omega
      have hcu := hmax hVl
      have hpos := (hD.vote hv).2.1
      rcases hfound with ⟨_, _, huv, hupn, _⟩ | ⟨hle, huv, hupn, _⟩
      · rw [huv, hupn]
        exact ⟨hcu, fun hlt => by omega⟩
      · rw [huv, hupn]
        have hle : last.uncommittedPn ≤ m.uncommittedPn := by
          rcases hle with h0 | hle
          · omega
          · exact hle
        refine ⟨hcu.trans hle, fun hlt => ?_⟩
        have hlt : m.uncommittedV < max m.lastCommitted last.lastCommitted + 1 := hlt
        show c < m.uncommittedPn
        rcases lt_or_ge last.uncommittedPn m.uncommittedPn with hlt' | hge
        · omega
        · exact absurd ⟨by omega, by omega, by omega⟩ htie
    · have ha : a = i ∨ a ∈ m.lastsFrom := by tauto
      obtain ⟨hp, hvotes⟩ := h.counted a ha
      refine ⟨hp.trans (hin.ahead.grows.held a), fun V c w hv hc => ?_⟩
      obtain ⟨hV, hmax⟩ := hvotes V c w (hin.ahead.vote_of_lt hv (hc.trans_le hp)) hc
      refine ⟨by omega, fun hVe => ?_⟩
      have hVl : V = m.lastCommitted + 1 := by omega
      obtain ⟨hle, hstrict⟩ := hmax hVl
      rcases hfound with ⟨_, hlt, huv, hupn, _⟩ | ⟨_, huv, hupn, _⟩
      · rw [huv, hupn]
        have hlt : m.uncommittedPn < last.uncommittedPn := hlt
        exact ⟨by omega, fun _ => by omega⟩
      · rw [huv, hupn]
        refine ⟨hle, fun hlt => hstrict ?_⟩
        have hlt : m.uncommittedV < max m.lastCommitted last.lastCommitted + 1 := hlt
        omega
  · rw [hlc]
    have hf := h.found
    rcases hfound with ⟨_, _, huv, _⟩ | ⟨_, huv, _⟩
    · rw [huv]
      omega
    · rw [huv]
      show m.uncommittedV ≤ _
      omega
  · rcases hfound with ⟨h0, _, huv, hupn, hval⟩ | ⟨_, huv, hupn, hval⟩
    · rw [huv, hupn, hval]
      exact .inr ⟨src, hin.ahead.vote (hlast.report h0)⟩
    · rw [huv, hupn, hval]
      rcases h.report with h0 | ⟨a, hv⟩
      · exact .inl h0
      · exact .inr ⟨a, hin.ahead.vote hv⟩
  · rw [hacc]
    exact fun V w hv => h.unused V w (hin.votes hv)

/-- **Recovery ends.** -/
theorem finishLasts_ok (hn : 1 < n) (hD : Durable n s) (hok : Tracks s i m) (hL : Leading s i m)
    (hlast : m.lastPn = (s.node i).store.lastPn) (hq : IsQuorum n i m.quorum) (hl : m.role = .leader)
    (hst : m.state = .recovering) (h : Recovering s i m) (now : ℕ) :
    Allows n i s (finishLasts n i lease now m).effs ∧ ((finishLasts n i lease now m).ok = true →
      NodeOk n (s.performAll i (finishLasts n i lease now m).effs) i (finishLasts n i lease now m).st) := by
  have hne : Role.leader ≠ .peon := by decide
  rcases finishLasts_cases n i lease m now with ⟨_, hf⟩ | ⟨hall, huv, hval, hf⟩ | ⟨hall, hnot, hqt, hs, hcalm⟩
  · rw [hf]
    refine ⟨trivial, fun _ => ⟨hok.lastCommitted, hok.stored, hok.held,
      fun hp => absurd (hl.symm.trans hp) hne, fun _ => ⟨fun _ => h, ?_, ?_, ?_⟩⟩⟩
    · exact fun hs => by cases hst.symm.trans hs
    · exact fun hs => by cases hst.symm.trans hs
    · exact fun hs => by cases hst.symm.trans hs
  · rw [hf]
    have hL' : Leading s i { m with state := .active } :=
      ⟨hL.own, hL.picked, hL.me, hL.tally, hL.counted, hL.others, hL.promised, fun _ => hall⟩
    have hsafe := recovered_safe hD hq hL h hall huv
    have hfree : ∀ V, m.lastCommitted + 1 < V → Free n s V m.acceptedPn :=
      fun V hV => recovered_free hq hL h hall hV
    exact begin_ok (m := { m with state := .active }) hn ⟨hok.lastCommitted, hok.stored, hok.held⟩ hL'
      hlast hq hval (fun w => h.unused _ w) hsafe hfree
  · -- a value found for the next version would not be empty
    have huv : m.uncommittedV ≠ m.lastCommitted + 1 := by
      intro huv
      rcases h.report with ⟨_, h0⟩ | ⟨a, hv⟩
      · omega
      · exact hnot ⟨huv, (hD.vote hv).1⟩
    have hclear := recovered_clear hD hq hL h hall huv
    have ha : Allows n i s (finishLasts n i lease now m).effs := allows_quiet hqt
    have hb := besides_outward ha fun e he => (hqt e he).outward
    set m' := (finishLasts n i lease now m).st with hm'
    have hlc : m'.lastCommitted = m.lastCommitted := hcalm.lastCommitted
    have hap : m'.acceptedPn = m.acceptedPn := hcalm.acceptedPn
    have hact : m'.state = .active := hs.state.symm
    have hclear' : Clear n (s.performAll i (finishLasts n i lease now m).effs) i m' := by
      have hc := hclear.besides hb
      exact ⟨fun V hV => hap ▸ hc.free V (hlc ▸ hV), fun w hv => hc.unused w (hlc ▸ hap ▸ hv)⟩
    refine ⟨ha, fun _ => ⟨?_, ?_, ?_, ?_, fun _ => ⟨?_, fun _ => hclear', ?_, ?_⟩⟩⟩
    · exact hlc.trans (hok.lastCommitted.trans hb.lastCommitted.symm)
    · rw [hb.acceptedPn, hap]
      exact hok.stored
    · rw [hap]
      exact hok.held.trans (hb.ahead.grows.held i)
    · exact fun hp => absurd (hl.symm.trans (hs.role.trans hp)) hne
    · exact fun h0 => absurd (hact.symm.trans h0) (by decide)
    · exact fun h0 => absurd (hact.symm.trans h0) (by decide)
    · exact fun h0 => absurd (hact.symm.trans h0) (by decide)

/-- **A LAST is handled.** -/
theorem handleLast_ok (hn : 1 < n) (hN : Numbers s) (hD : Durable n s) (hok : NodeOk n s i m)
    (hloc : Local s i m) (hq : IsQuorum n i m.quorum) {src now : ℕ} {c : MMonPaxos} {ms : List MMonPaxos}
    (hnet : s.net src i = c :: ms) (hop : c.op = .last) (hl : m.role = .leader)
    (hlastok : LastOk n s src i c) (hfresh : m.acceptedPn ≤ c.pn)
    (htie : c.pn = m.acceptedPn → ¬ Tie c m)
    (hknown : m.acceptedPn < c.pn →
      Known (s.node i).store (max m.lastCommitted c.lastCommitted) m.acceptedPn) :
    Allows n i (s.received src i) (handleLast n i lease (s.node i).store src c now m).effs ∧
      ((handleLast n i lease (s.node i).store src c now m).ok = true →
        NodeOk n ((s.received src i).performAll i (handleLast n i lease (s.node i).store src c now m).effs) i
          (handleLast n i lease (s.node i).store src c now m).st) := by
  set s1 := s.received src i with hs1
  have hb : Besides s s1 i := besides_received src
  have hlast1 : LastOk n s1 src i c := by
    have hmsg : MsgOk n s src i c := by
      unfold MsgOk
      rw [hop]
      exact hlastok
    have := hmsg.mono hb.ahead
    unfold MsgOk at this
    rw [hop] at this
    exact this
  obtain ⟨hpre, hin, hstore⟩ := learn_ok (m := m) (hD.received src) (hok.besides hb).lastCommitted
    src hlast1.news
  set t := s1.performAll i (shared (s1.node i).store src c m ++ learned c m) with ht
  have hplain := plain_shared_learned (s1.node i).store src c m
  have hDt : Durable n t := (hD.received src).performAll hpre
  have hlast : m.lastPn = (t.node i).store.lastPn := hloc.recalls.lastPn.trans hin.lastPn.symm
  have htr : Tracks t i (withLearned c m) := by
    refine ⟨hin.lastCommitted.symm, ?_, ?_⟩
    · rw [hin.acceptedPn]
      exact hok.stored
    · exact hok.held.trans (hb.ahead.grows.held i |>.trans (hin.ahead.grows.held i))
  rcases handleLast_cases n i lease (s.node i).store m src c now hl with ⟨hlt, h⟩ | ⟨hle, h⟩
  · rw [h, emit_andThen, performAll_append]
    have hk : Known (t.node i).store (withLearned c m).lastCommitted (withLearned c m).acceptedPn := by
      obtain ⟨h1, h2⟩ := hin.above (max m.lastCommitted c.lastCommitted + 1) (Nat.lt_succ_self _)
      have h0 := hknown hlt
      show ((t.node i).store.bl (max m.lastCommitted c.lastCommitted + 1)).isSome →
        (t.node i).store.under (max m.lastCommitted c.lastCommitted + 1) = some m.acceptedPn
      rw [h1, h2]
      exact h0
    have hcol := collect_ok (m := withLearned c m) hDt htr.lastCommitted htr.stored hlast hl hk c.pn
    rw [hstore] at hcol
    exact ⟨(chain_append _ _ s1).mpr ⟨hpre, hcol.1⟩, fun _ => hcol.2⟩
  · have hpn : c.pn = m.acceptedPn := le_antisymm hle hfresh
    have hcm : c ∈ s.net src i := hnet ▸ mem_cons_self
    have hlead := hloc.leading hl (hq.card_ne_one hn)
    have hrec := hlead.recovering (hN.last_own hcm hop).1 hcm hop hpn
    obtain ⟨hq', ha, hlp, hr, hlc, _, hst, _⟩ := countLast_kept src c (withLearned c m)
    set m2 := countLast src c (withLearned c m) with hm2
    have hL₂ : Leading t i m2 := by
      have h0 := leading_countLast hN hlead hnet hop hpn
      exact h0.performAll (fun e he => (hplain e he).noCollect) rfl rfl rfl rfl rfl h0.done
    have hR : Recovering t i m2 := by
      refine recovering_countLast (hD.received src) ?_ hlast1 hpn (htie hpn) hin
      exact ((hok.lead hl).recovering hrec).besides hb
    have htr2 : Tracks t i m2 :=
      ⟨hlc.trans htr.lastCommitted, by rw [ha]; exact htr.stored, by rw [ha]; exact htr.held⟩
    have hfin := @finishLasts_ok n lease t i m2 hn hDt htr2 hL₂ (hlp.trans hlast) (by rw [hq']; exact hq)
      (hr.trans hl) (hst.trans hrec) hR now
    rw [h, emit_andThen, performAll_append]
    exact ⟨(chain_append _ _ s1).mpr ⟨hpre, hfin.1⟩, hfin.2⟩

theorem chosen_of_accepts (hD : Durable n s) (hP : Proposed n s i m) (hown : m.acceptedPn % 100 = i)
    {A : Finset ℕ} (hA : ∀ a ∈ A, ∃ w, Vote s a (m.lastCommitted + 1) m.acceptedPn w)
    (hmaj : Majority n A) : Chosen n s (m.lastCommitted + 1) m.newValue := by
  refine ⟨m.acceptedPn, A, hmaj, fun a ha => ?_⟩
  obtain ⟨w, hw⟩ := hA a ha
  have howner := (hD.vote hw).2.2.2.2.2.2
  have hmine : Vote s (m.acceptedPn % 100) (m.lastCommitted + 1) m.acceptedPn m.newValue := by
    rw [hown]
    exact hP.vote
  rw [hD.unique hmine howner]
  exact hw

/-- **An ACCEPT is counted**, and commits with a new majority. -/
theorem countAccept_nodeOk (hD : Durable n s) (hok : NodeOk n s i m) (hL : Leading s i m)
    (hround : Round n s i m) (hl : m.role = .leader) (hst : m.state = .updating) {src : ℕ} {a : MMonPaxos}
    (hvote : ∃ w, Vote s src (a.lastCommitted + 1) a.pn w) (hpn : a.pn = m.acceptedPn)
    (hin : InRound m a) (hsrc : src ∉ m.accepted) (hquo : src ∈ m.quorum)
    (hsub : m.accepted ⊆ m.quorum) :
    Allows n i s (countAccept n i src m).effs ∧
      NodeOk n (s.performAll i (countAccept n i src m).effs) i (countAccept n i src m).st := by
  have hne : Role.leader ≠ .peon := by decide
  have hmaj := hround.majority hst
  have hcard : (insert src m.accepted).card = m.accepted.card + 1 := Finset.card_insert_of_notMem hsrc
  have hlead := hok.lead hl
  rcases countAccept_cases n i m src with ⟨hc, heq⟩ | ⟨hc, heq⟩
  · -- a new majority
    have hnew : m.newValue ≠ [] := by
      intro h0
      have := hmaj.mp h0
      omega
    have hP := hlead.proposed hst hnew
    have hlc : a.lastCommitted = m.lastCommitted := by
      unfold InRound at hin
      rw [if_neg hnew] at hin
      exact hin
    have hA : ∀ x ∈ insert src m.accepted, ∃ w, Vote s x (m.lastCommitted + 1) m.acceptedPn w := by
      intro x hx
      rcases Finset.mem_insert.mp hx with rfl | hx
      · obtain ⟨w, hw⟩ := hvote
        rw [hlc, hpn] at hw
        exact ⟨w, hw⟩
      · exact hP.accepted x hx
    have hM : Majority n (insert src m.accepted) := by
      refine ⟨?_, by rw [hc]; omega⟩
      exact (Finset.insert_subset hquo hsub).trans hround.quorum.2.1
    have hch := chosen_of_accepts hD hP hL.own.1 hA hM
    rw [heq]
    have h1 : Allowed n i s (.putLastCommitted (m.lastCommitted + 1)) := by
      refine ⟨by rw [hok.lastCommitted]; exact Nat.le_succ _, fun u hu hle => ?_⟩
      obtain rfl : u = m.lastCommitted + 1 := by
        have := hok.lastCommitted
        omega
      exact ⟨m.newValue, hP.stored, hch⟩
    set t := s.perform i (.putLastCommitted (m.lastCommitted + 1)) with ht
    have h2 : Allows n i t ((others n i m.quorum).map fun p => .send p (commitMsg m)) := by
      refine allows_bcast fun d _ => ?_
      intro p hp
      obtain rfl : p = (m.lastCommitted + 1, m.newValue) := mem_singleton.mp hp
      exact hch.grows (grows_perform h1)
    have hb := besides_outward h2 (outward_bcast _ _)
    have hclear : Clear n t i { m with
        accepted := insert src m.accepted, lastCommitted := m.lastCommitted + 1, newValue := [] } := by
      refine ⟨fun V hV => (hP.free V hV).grows (grows_perform h1), fun w hv => ?_⟩
      rcases vote_perform.mp hv with hv | ⟨_, h0⟩
      · have hV : m.lastCommitted + 1 + 1 ≤ (s.node i).store.lastCommitted + 1 :=
          (hD.vote hv).2.2.2.2.1
        rw [← hok.lastCommitted] at hV
        omega
      · cases h0
    refine ⟨⟨h1, h2⟩, ?_, ?_, ?_, fun hp => absurd (hl.symm.trans hp) hne, fun _ => ⟨?_, ?_, ?_, ?_⟩⟩
    · refine Eq.trans ?_ hb.lastCommitted.symm
      rw [ht, perform_store]
      rfl
    · refine le_trans (le_of_eq hb.acceptedPn) ?_
      rw [ht, perform_store]
      exact hok.stored
    · exact hok.held.trans (((ahead_perform h1).trans hb.ahead).grows.held i)
    · exact fun hs => by cases hst.symm.trans hs
    · exact fun hs => by cases hst.symm.trans hs
    · exact fun _ h0 => absurd rfl h0
    · exact fun _ _ => hclear.besides hb
  · rw [heq]
    refine ⟨trivial, hok.lastCommitted, hok.stored, hok.held, hok.peon, fun _ => ⟨?_, ?_, ?_, ?_⟩⟩
    · exact fun hs => by cases hst.symm.trans hs
    · exact fun hs => by cases hst.symm.trans hs
    · intro hs hnew
      have hval : m.newValue ≠ [] := hnew
      have hP := hlead.proposed hs hval
      refine ⟨hP.vote, hP.stored, hP.free, fun x hx => ?_⟩
      rcases Finset.mem_insert.mp hx with rfl | hx
      · obtain ⟨w, hw⟩ := hvote
        unfold InRound at hin
        rw [if_neg hval] at hin
        have hlc : a.lastCommitted = m.lastCommitted := hin
        rw [hlc, hpn] at hw
        exact ⟨w, hw⟩
      · exact hP.accepted x hx
    · intro hs hnew
      have hC := hlead.committed hs hnew
      exact ⟨hC.free, hC.unused⟩

theorem Round.mem_quorum (h : Round n s i m) (hst : m.state = .updating) {a : ℕ} {c : MMonPaxos}
    (hne : a ≠ i) (hc : c ∈ s.net a i) (hop : c.op = .accept) (hpn : c.pn = m.acceptedPn) :
    a ∈ m.quorum := by
  by_contra hq
  have hpos : 0 < (s.net a i).countP (isOp .accept m.acceptedPn) :=
    countP_pos_iff.mpr ⟨c, hc, by simp [isOp, hop, hpn]⟩
  have ht := h.tally hst a hne
  unfold inFlight at ht
  rw [if_neg hq] at ht
  omega

theorem Round.accepted_subset (h : Round n s i m) (hst : m.state = .updating) :
    m.accepted ⊆ m.quorum := by
  intro a ha
  by_cases hai : a = i
  · subst hai
    exact h.quorum.1
  · by_contra hq
    have ht := h.tally hst a hai
    rw [if_neg hq, if_pos ha] at ht
    omega

/-- **An ACCEPT is handled.** A peon ignores it: it is for the leader that picked
its number. -/
theorem handleAccept_ok (hn : 1 < n) (hN : Numbers s) (hD : Durable n s) (hok : NodeOk n s i m)
    (hloc : Local s i m) (hround : m.role = .leader → Round n s i m) (hrole : m.role ≠ .starting)
    {src now : ℕ} {c : MMonPaxos} {ms : List MMonPaxos} (hnet : s.net src i = c :: ms)
    (hop : c.op = .accept) :
    Allows n i (s.received src i) (handleAccept n i lease src c now m).effs ∧
      NodeOk n ((s.received src i).performAll i (handleAccept n i lease src c now m).effs) i
        (handleAccept n i lease src c now m).st := by
  have hcm : c ∈ s.net src i := hnet ▸ mem_cons_self
  have hb : Besides s (s.received src i) i := besides_received src
  have hok1 := hok.besides hb
  rcases handleAccept_cases n i lease m src c now with ⟨he, hs⟩ | ⟨hpn, _, hst, hsrc, heq⟩
  · rw [he, hs]
    exact ⟨trivial, hok1⟩
  obtain ⟨hne, hown⟩ := hN.accept_own hcm hop
  have hl : m.role = .leader := by
    cases hr : m.role with
    | leader => rfl
    | starting => exact absurd hr hrole
    | peon => exact absurd (by rw [← hpn]; exact hown.1) (hok.peon hr hst)
  have hR := hround hl
  have hvote : ∃ w, Vote s src (c.lastCommitted + 1) c.pn w := by
    have hmsg := hD.msg (hD.sent hcm)
    unfold MsgOk at hmsg
    rw [hop] at hmsg
    exact hmsg
  have hcount := countAccept_nodeOk (hD.received src) hok1
    ((hloc.received src).leading hl (hR.quorum.card_ne_one hn)) (hR.received src) hl hst hvote hpn
    (hR.accepts hst src hne c hcm hop hpn) hsrc (hR.mem_quorum hst hne hcm hop hpn) (hR.accepted_subset hst)
  obtain ⟨hR₁, hst1⟩ := round_countAccept hR hnet hop hpn hst hsrc
  have hl1 : (countAccept n i src m).st.role = .leader := by
    rcases countAccept_cases n i m src with ⟨_, h⟩ | ⟨_, h⟩ <;> rw [h] <;> exact hl
  rw [heq, andThen, if_pos (countAccept_ok n i m src), performAll_append]
  set t := (s.received src i).performAll i (countAccept n i src m).effs with ht
  set m1 := (countAccept n i src m).st with hm1
  rcases finishAccepts_cases n i lease m1 now with ⟨_, hf⟩ | ⟨hall, hq, hs, hcalm⟩
  · rw [hf]
    refine ⟨(chain_append _ _ _).mpr ⟨hcount.1, trivial⟩, hcount.2⟩
  · have ha : Allows n i t (finishAccepts n i lease now m1).effs := allows_quiet hq
    have hb' := besides_outward ha fun e he => (hq e he).outward
    -- the whole quorum is a majority, so the value is committed
    have hnew : m1.newValue = [] := by
      refine (hR₁.majority hst1).mpr ?_
      rw [hall]
      have := hR₁.quorum.2.2
      omega
    have hok' := hcount.2.besides hb'
    have hclear := (hok'.lead hl1).committed hst1 hnew
    set m' := (finishAccepts n i lease now m1).st with hm'
    have hlc : m'.lastCommitted = m1.lastCommitted := hcalm.lastCommitted
    have hap : m'.acceptedPn = m1.acceptedPn := hcalm.acceptedPn
    have hact : m'.state = .active := hs.state.symm
    have hrl : m'.role = .leader := hs.role.symm.trans hl1
    refine ⟨(chain_append _ _ _).mpr ⟨hcount.1, ha⟩, ?_, ?_, ?_, ?_, fun _ => ⟨?_, fun _ => ?_, ?_, ?_⟩⟩
    · exact hlc.trans hok'.lastCommitted
    · rw [hap]; exact hok'.stored
    · rw [hap]; exact hok'.held
    · exact fun hp => absurd (hrl.symm.trans hp) (by decide)
    · exact fun h0 => absurd (hact.symm.trans h0) (by decide)
    · exact ⟨fun V hV => hap ▸ hclear.free V (hlc ▸ hV), fun w hv => hclear.unused w (hlc ▸ hap ▸ hv)⟩
    · exact fun h0 => absurd (hact.symm.trans h0) (by decide)
    · exact fun h0 => absurd (hact.symm.trans h0) (by decide)

/-! ### Runs -/

/-- The condition on a message that a monitor handles. A COLLECT is answered with
a stored value only if that was accepted under `accepted_pn`; a BEGIN is not
accepted below a number the monitor has itself picked; a leader handles no
LAST below its `accepted_pn`, none with a value that ties with an older one,
and collects again with a stored value only if that was accepted under
`accepted_pn`. -/
def FaithfulMsg (nd : Node) (c : MMonPaxos) : Prop :=
  (c.op = .collect → nd.mon.role = .peon → Known nd.store nd.mon.lastCommitted nd.mon.acceptedPn) ∧
  (c.op = .begin → c.pn = nd.mon.acceptedPn → nd.store.lastPn ≤ c.pn) ∧
  (c.op = .last → nd.mon.role = .leader → nd.mon.acceptedPn ≤ c.pn ∧
    (c.pn = nd.mon.acceptedPn → ¬ Tie c nd.mon) ∧
    (nd.mon.acceptedPn < c.pn →
      Known nd.store (max nd.mon.lastCommitted c.lastCommitted) nd.mon.acceptedPn))

/-- The condition on the events of a run: on the messages handled, and on a
winner, which has a rank below 100 and collects with a stored value only if
that was accepted under `accepted_pn`. -/
def Faithful (s : Cluster) : Event → Prop
  | .win i _ q => q.card ≠ 1 →
      i < 100 ∧ Known (s.node i).store (s.node i).mon.lastCommitted (s.node i).mon.acceptedPn
  | .deliver i j _ => ∀ c ∈ (s.net i j).head?, c.epoch = (s.node j).mon.monEpoch →
      FaithfulMsg (s.node j) c
  | _ => True

theorem Faithful.freshLasts {ev : Event} (h : Faithful s ev) : FreshLasts s ev := by
  cases ev with
  | win i e q => exact fun h1 => (h h1).1
  | deliver i j now => exact fun c hc hop hl he => ((h c hc he).2.2 hop hl).1
  | _ => trivial

/-- The invariant. -/
structure Agreeing (n : ℕ) (s : Cluster) : Prop where
  rounds : InRounds n s
  durable : Durable n s
  node : ∀ i, (s.node i).up = true → NodeOk n s i (s.node i).mon

/-- **A monitor's own step.** -/
theorem move_ok (hn : 1 < n) (h : Agreeing n s) (hup : (s.node i).up = true) {s1 : Cluster} {ev : Event}
    {o : Handled} (hm : Move n lease s i ev s1 o) (hc : Faithful s ev) :
    Durable n s1 ∧ Allows n i s1 o.effs ∧ (o.ok = true → NodeOk n (s1.performAll i o.effs) i o.st) := by
  have hN := h.rounds.sound.numbers
  have hloc := h.rounds.sound.local_up i hup
  have hround := h.rounds.round i hup
  have hD := h.durable
  have hok := h.node i hup
  have hmsg : ∀ {src : ℕ} {c : MMonPaxos} {ms : List MMonPaxos}, s.net src i = c :: ms →
      c ∈ s.net src i ∧ MsgOk n s src i c ∧ c ∈ (s.net src i).head? := by
    intro src c ms hnet
    have hcm : c ∈ s.net src i := hnet ▸ mem_cons_self
    exact ⟨hcm, hD.msg (hD.sent hcm), by rw [hnet]; rfl⟩
  cases hm with
  | quiet hs hq hcalm =>
    have hD₁ : Durable n s1 := by
      rcases hs with rfl | ⟨src, rfl⟩
      · exact hD
      · exact hD.received src
    have hok1 : NodeOk n s1 i (s.node i).mon := by
      rcases hs with rfl | ⟨src, rfl⟩
      · exact hok
      · exact hok.besides (besides_received src)
    have ha : Allows n i s1 o.effs := allows_quiet hq
    have hok' := hok1.besides (besides_outward ha fun e he => (hq e he).outward)
    refine ⟨hD₁, ha, fun _ => ⟨hcalm.lastCommitted.trans hok'.lastCommitted, ?_, ?_, ?_, fun hl => ?_⟩⟩
    · rw [hcalm.acceptedPn]; exact hok'.stored
    · rw [hcalm.acceptedPn]; exact hok'.held
    · intro hp hst
      rw [hcalm.acceptedPn]
      obtain ⟨hp', hst'⟩ := hcalm.update hp hst
      exact hok'.peon hp' hst'
    · have hsame := hcalm.lead hl
      exact (hok'.lead (hsame.role.trans hl)).of_same hsame hcalm.lastCommitted hcalm.acceptedPn
  | alone e q hq h1 => exact absurd h1 (hq.card_ne_one hn)
  | win e q hq h1 =>
    have hcol := collect_ok (n := n) (m := elected i e q (s.node i).mon) hD hok.lastCommitted hok.stored
      hloc.recalls.lastPn rfl (hc h1).2 0
    exact ⟨hD, hcol.1, fun _ => hcol.2⟩
  | propose v hv hl hst =>
    have hR := hround hl
    have hL := hloc.leading hl (hR.quorum.card_ne_one hn)
    have hclear := (hok.lead hl).active hst
    have hL' : Leading s i (cancelEvents (s.node i).mon) :=
      ⟨hL.own, hL.picked, hL.me, hL.tally, hL.counted, hL.others, hL.promised, hL.done⟩
    have hsafe := (hclear.free _ (Nat.lt_succ_self _)).safe v
    have hfree : ∀ V, (s.node i).mon.lastCommitted + 1 < V → Free n s V (s.node i).mon.acceptedPn :=
      fun V hV => hclear.free V (by omega)
    exact ⟨hD, begin_ok (m := cancelEvents (s.node i).mon) hn
      ⟨hok.lastCommitted, hok.stored, hok.held⟩ hL' hloc.recalls.lastPn hR.quorum hv hclear.unused hsafe hfree⟩
  | collect src now c ms hnet hop he hp =>
    obtain ⟨_, hM, hhead⟩ := hmsg hnet
    unfold MsgOk at hM
    rw [hop] at hM
    exact ⟨hD.received src, handleCollect_ok (hD.received src) (hok.besides (besides_received src)) hp
      ((hc c hhead he).1 hop hp) hM⟩
  | last src now c ms hnet hop he hl =>
    obtain ⟨_, hM, hhead⟩ := hmsg hnet
    unfold MsgOk at hM
    rw [hop] at hM
    obtain ⟨h1, h2, h3⟩ := (hc c hhead he).2.2 hop hl
    exact ⟨hD.received src,
      handleLast_ok hn hN hD hok hloc (hround hl).quorum hnet hop hl hM h1 h2 h3⟩
  | begin src now c ms hnet hop he hr =>
    obtain ⟨hcm, hM, hhead⟩ := hmsg hnet
    unfold MsgOk at hM
    rw [hop] at hM
    obtain ⟨hne, hown⟩ := hN.begin_own hcm hop
    have hb := handleBegin_ok (b := c) (hD.received src) (hok.besides (besides_received src)) hM hne.symm
      hown.1 (fun hl => (hloc.leading hl ((hround hl).quorum.card_ne_one hn)).own.1)
      ((hc c hhead he).2.1 hop)
    exact ⟨hD.received src, hb.1, fun _ => hb.2⟩
  | accept src now c ms hnet hop he hr =>
    have ha := @handleAccept_ok n lease s i _ hn hN hD hok hloc hround hr src now c ms hnet hop
    exact ⟨hD.received src, ha.1, fun _ => ha.2⟩
  | commit src now c ms hnet hop he hp =>
    obtain ⟨_, hM, _⟩ := hmsg hnet
    unfold MsgOk at hM
    rw [hop] at hM
    exact ⟨hD.received src, handleCommit_ok (hok.besides (besides_received src)) hp hM⟩

/-- The condition on the actions of a run. -/
abbrev FaithfulRun : Cluster → Act → Prop := OnEvents Faithful

theorem agreeing_fresh : Agreeing n fresh := by
  refine ⟨inRounds_fresh, ⟨?_, ?_, ?_, ?_, ?_, ?_, ?_, ?_⟩, ?_⟩ <;>
    simp [fresh, Links.empty, Vote, Store.mkfs]
  intros
  omega

/-- **Every step keeps it.** -/
theorem agreement_step (hn : 1 < n) {a : Act} (h : Agreeing n s) (hc : FaithfulRun s a)
    (hs : step n lease s a = some s') : Agreeing n s' := by
  have hfresh : NoStaleLast s a := by
    cases a with
    | run ev => exact Faithful.freshLasts hc
    | cut ev k => exact Faithful.freshLasts hc
    | restart i => trivial
    | drop i j k => trivial
  have hrounds := rounds_step hn h.rounds hfresh hs
  rcases step_cases hs with ⟨ev, i, s1, o, es, m, up, ha, ⟨_, hup⟩, hm, hes, hfull, rfl⟩ |
    ⟨i, rfl, _, _, rfl⟩ | ⟨i, j, k, rfl, rfl⟩
  · have hev : Faithful s ev := by
      rcases ha with rfl | ⟨k, rfl⟩
      · exact hc
      · exact hc
    obtain ⟨hD₁, hall, hnode⟩ := move_ok hn h hup hm hev
    have hpre := hall.of_prefix hes
    have hD := hD₁.performAll hpre
    set t := s1.performAll i es with ht
    have hst := sameStores_become t i m up
    refine ⟨hrounds, hD.same hst fun _ _ => .refl _, fun j hj => ?_⟩
    by_cases hji : j = i
    · subst hji
      rw [become_node] at hj ⊢
      obtain ⟨rfl, rfl, hok⟩ := hfull hj
      exact (hnode hok).besides (hst.besides j)
    · have hsame : (t.become i m up).node j = s.node j := by
        rw [become_node_ne i t hji, ht, performAll_node_ne i s1 es hji, hm.same.1]
      rw [hsame] at hj ⊢
      have h1 := (h.node j hj).besides ((sameStores_net hm.same.1 hm.same.2).besides j)
      exact (h1.besides (besides_other hji hpre)).besides (hst.besides j)
  · have hst := sameStores_restart s i
    refine ⟨hrounds, h.durable.same hst fun _ _ => .refl _, fun j hj => ?_⟩
    by_cases hji : j = i
    · subst hji
      have hmon : ((s.restart j).node j).mon = init (s.node j).store := by rw [restart_node]; rfl
      rw [hmon]
      refine ⟨(hst.lastCommitted j).symm, (hst.acceptedPn j).le, ?_, fun hp => (by cases hp),
        fun hl => (by cases hl)⟩
      rw [hst.held]
      exact le_max_right _ _
    · rw [restart_node_ne i s hji] at hj ⊢
      exact (h.node j hj).besides (hst.besides j)
  · have hst : SameStores s (s.drop i j k) := sameStores_net rfl rfl
    exact ⟨hrounds, h.durable.same hst (s.net.take_sublist i j k),
      fun a ha => (h.node a ha).besides (hst.besides a)⟩

/-- The last version that `i` takes for committed: from memory, or while it is
down from the store. -/
def Cluster.lastCommitted (s : Cluster) (i : ℕ) : ℕ :=
  if (s.node i).up then (s.node i).mon.lastCommitted else (s.node i).store.lastCommitted

/-- **Monitor agreement.** In every run that meets the condition, two monitors
that have both committed a version hold the same blob for it. -/
theorem agreement (n lease : ℕ) {s : Cluster} (h : Run.Reach (step n lease) FaithfulRun fresh s)
    {i j v : ℕ} (hi : i < n) (hj : j < n) (hvi : v ≤ s.lastCommitted i) (hvj : v ≤ s.lastCommitted j) :
    (s.node i).store.bl v = (s.node j).store.bl v := by
  by_cases hn : 1 < n
  · have hA : Agreeing n s := h.inv (Agreeing n) agreeing_fresh fun _ _ _ hP hc hs => agreement_step hn hP hc hs
    have hlc : ∀ a, s.lastCommitted a = (s.node a).store.lastCommitted := by
      intro a
      unfold lastCommitted
      split_ifs with hup
      · exact (hA.node a hup).lastCommitted
      · rfl
    rw [hlc] at hvi hvj
    rcases Nat.eq_zero_or_pos v with rfl | hv
    · rw [hA.durable.zero, hA.durable.zero]
    obtain ⟨b, hb, hch⟩ := hA.durable.committed hv hvi
    obtain ⟨b', hb', hch'⟩ := hA.durable.committed hv hvj
    rw [hb, hb', hA.durable.chosen_unique hch hch']
  · obtain rfl : i = j := by omega
    rfl

/-- In memory and in the store it is the same. -/
theorem Agreeing.lastCommitted_eq (h : Agreeing n s) (a : ℕ) :
    s.lastCommitted a = (s.node a).store.lastCommitted := by
  unfold Cluster.lastCommitted
  split_ifs with hup
  · exact (h.node a hup).lastCommitted
  · rfl

/-- **A step takes back nothing** that the stores have. -/
theorem ahead_step (hn : 1 < n) {a : Act} (h : Agreeing n s) (hc : FaithfulRun s a)
    (hs : step n lease s a = some s') : Ahead s s' := by
  rcases step_cases hs with ⟨ev, i, s1, o, es, m, up, ha, ⟨_, hup⟩, hm, hes, -, rfl⟩ |
    ⟨i, rfl, _, _, rfl⟩ | ⟨i, j, k, rfl, rfl⟩
  · have hev : Faithful s ev := by
      rcases ha with rfl | ⟨k, rfl⟩
      · exact hc
      · exact hc
    obtain ⟨-, hall, -⟩ := move_ok hn h hup hm hev
    have hperf := ahead_performAll (hall.of_prefix hes)
    exact (sameStores_net hm.same.1 hm.same.2).ahead.trans (hperf.trans (sameStores_become _ i m up).ahead)
  · exact (sameStores_restart s i).ahead
  · have hst : SameStores s (s.drop i j k) := sameStores_net rfl rfl
    exact hst.ahead

/-- **A committed version stays.** Once a monitor has committed it, it has it after
any crashes, elections and losses to come, and whoever has committed it then
has what was stored. -/
theorem committed_for_good (lease : ℕ) {t : Cluster} (hn : 1 < n) (h : Run.Reach (step n lease) FaithfulRun fresh s)
    (ht : Run.Reach (step n lease) FaithfulRun s t) {i j v : ℕ} (hv : 0 < v) (hi : v ≤ s.lastCommitted i) :
    v ≤ t.lastCommitted i ∧ ∃ b, (s.node i).store.bl v = some b ∧
      (v ≤ t.lastCommitted j → (t.node j).store.bl v = some b) := by
  have hA : Agreeing n s := h.inv (Agreeing n) agreeing_fresh fun _ _ _ => agreement_step hn
  obtain ⟨hB, hah⟩ := ht.inv (fun t => Agreeing n t ∧ Ahead s t) ⟨hA, .refl s⟩ fun _ _ _ hP hc hs =>
    ⟨agreement_step hn hP.1 hc hs, hP.2.trans (ahead_step hn hP.1 hc hs)⟩
  rw [hA.lastCommitted_eq] at hi
  rw [hB.lastCommitted_eq, hB.lastCommitted_eq]
  obtain ⟨b, hb, hch⟩ := hA.durable.committed hv hi
  refine ⟨hi.trans (hah.lastCommitted i), b, hb, fun hj => ?_⟩
  obtain ⟨b', hb', hch'⟩ := hB.durable.committed hv hj
  rw [hb', hB.durable.chosen_unique (hch.grows hah.grows) hch']

instance (nd : Node) (c : MMonPaxos) : Decidable (FaithfulMsg nd c) :=
  inferInstanceAs (Decidable (_ ∧ _ ∧ _))

instance : ∀ (s : Cluster) (ev : Event), Decidable (Faithful s ev)
  | _, .win _ _ _ => inferInstanceAs (Decidable (_ → _))
  | _, .deliver _ _ _ => inferInstanceAs (Decidable (∀ _ ∈ _, _ → _))
  | _, .lose _ _ _ | _, .propose _ _ | _, .callElection _ | _, .leaseRenew _ _ => isTrue trivial

instance : ∀ (s : Cluster) (a : Act), Decidable (FaithfulRun s a)
  | s, .run ev => inferInstanceAs (Decidable (Faithful s ev))
  | s, .cut ev _ => inferInstanceAs (Decidable (Faithful s ev))
  | _, .restart _ => isTrue trivial
  | _, .drop _ _ _ => isTrue trivial

/-- Monitor 0 leads, and version 1 is decided; 2 learns of it from the COMMIT. -/
def firstVersion : List Act :=
  [.restart 0, .restart 1, .restart 2,
    .run (.win 0 2 {0, 1, 2}), .run (.lose 1 2 0), .run (.lose 2 2 0),
    .run (.deliver 0 1 0), .run (.deliver 0 2 0), .run (.deliver 1 0 0), .run (.deliver 2 0 0),
    .run (.propose 0 [1]), .run (.deliver 0 1 0), .run (.deliver 0 2 0),
    .run (.deliver 0 1 0), .run (.deliver 0 2 0),
    .run (.deliver 1 0 0), .run (.deliver 1 0 0), .run (.deliver 2 0 0), .run (.deliver 2 0 0),
    .run (.deliver 0 2 0)]

/-- The condition leaves this run alone, and a crash of the leader after it. -/
theorem agreement_first : ∃ s, Run.Reach (step 3 5) FaithfulRun fresh s ∧ (s.node 0).up = false ∧
    (s.node 0).store.bl 1 = some [1] ∧ (s.node 0).store.bl 1 = (s.node 2).store.bl 1 := by
  have hrun : (Run.exec (step 3 5) FaithfulRun (firstVersion ++ [.cut (.callElection 0) 0]) fresh).map
      (fun s => decide (1 ≤ s.lastCommitted 0 ∧ 1 ≤ s.lastCommitted 2 ∧ (s.node 0).up = false ∧
        (s.node 0).store.bl 1 = some [1])) = some true := by
    decide +kernel
  obtain ⟨s, hs, hd⟩ := Option.map_eq_some_iff.mp hrun
  obtain ⟨h0, h2, hdown, hbl⟩ := of_decide_eq_true hd
  have hr := Run.reach_of_exec hs
  exact ⟨s, hr, hdown, hbl, agreement 3 5 hr (by decide) (by decide) h0 h2⟩

/-- The leader dies and comes back, and its COMMIT reaches 1 after that. -/
theorem committed_for_good_restart : ∃ s t, Run.Reach (step 3 5) FaithfulRun fresh s ∧
    Run.Reach (step 3 5) FaithfulRun s t ∧ s.lastCommitted 1 = 0 ∧ 1 ≤ t.lastCommitted 1 ∧
    1 ≤ t.lastCommitted 0 ∧ ∃ b, (s.node 0).store.bl 1 = some b ∧
      (1 ≤ t.lastCommitted 1 → (t.node 1).store.bl 1 = some b) := by
  have hrun : ((Run.exec (step 3 5) FaithfulRun firstVersion fresh).bind fun s =>
      (Run.exec (step 3 5) FaithfulRun [.cut (.callElection 0) 0, .restart 0, .run (.deliver 0 1 0)] s).map fun t =>
        decide (1 ≤ s.lastCommitted 0 ∧ s.lastCommitted 1 = 0 ∧ 1 ≤ t.lastCommitted 1)) = some true := by
    decide +kernel
  obtain ⟨s, hs, hrun⟩ := Option.bind_eq_some_iff.mp hrun
  obtain ⟨t, ht, hd⟩ := Option.map_eq_some_iff.mp hrun
  obtain ⟨h0, h1, ht1⟩ := of_decide_eq_true hd
  have hr := Run.reach_of_exec hs
  have hrt := Run.reach_of_exec ht
  exact ⟨s, t, hr, hrt, h1, ht1, committed_for_good 5 (by decide) hr hrt Nat.one_pos h0⟩

/-- Monitor 0 goes on: 2 accepts version 2, and 0 commits it, while 1 has not
even heard of the COMMIT of version 1. Then 1 wins with 2. Its own value, for
version 1, and the one of 2, for version 2, have the same number; the first
stays. So 1 proposes something else for version 2. -/
def tiedValue : List Act :=
  [.run (.propose 0 [2]), .run (.deliver 0 2 0), .run (.deliver 0 2 0),
    .run (.deliver 2 0 0), .run (.deliver 2 0 0),
    .run (.win 1 4 {1, 2}), .run (.lose 2 4 1), .run (.deliver 1 2 0), .run (.deliver 2 1 0),
    .run (.propose 1 [3]), .run (.deliver 1 2 0), .run (.deliver 1 2 0),
    .run (.deliver 2 1 0), .run (.deliver 2 1 0)]

/-- Without the condition two monitors can commit different versions 2, with no
crash and no message lost. -/
theorem split_brain : ∃ s, Run.Reach (step 3 5) Run.anyAct fresh s ∧ 2 ≤ s.lastCommitted 0 ∧
    2 ≤ s.lastCommitted 1 ∧ (s.node 0).store.bl 2 = some [2] ∧ (s.node 1).store.bl 2 = some [3] := by
  have hrun : (Run.exec (step 3 5) Run.anyAct (firstVersion ++ tiedValue) fresh).map (fun s =>
      decide (2 ≤ s.lastCommitted 0 ∧ 2 ≤ s.lastCommitted 1 ∧ (s.node 0).store.bl 2 = some [2] ∧
        (s.node 1).store.bl 2 = some [3])) = some true := by
    decide +kernel
  obtain ⟨s, hs, hd⟩ := Option.map_eq_some_iff.mp hrun
  exact ⟨s, Run.reach_of_exec hs, of_decide_eq_true hd⟩

end Paxos
end Ceph
