/-
# The number reported with an uncommitted value

A LAST reports a value accepted for the next version with `uncommitted_pn`,
"previous pn, if we are a LAST with an uncommitted value"
(`messages/MMonPaxos.h`). The source keeps no number with the value and sends
`accepted_pn`, which also moves with every COLLECT accepted and every collect
started, and goes back at a restart. The report is right as long as it has
not moved since the value was accepted.
-/
import Ceph.Mon.Numbers

namespace Ceph
namespace Paxos

open List Function Cluster
open Option hiding max_eq_left max_eq_right

variable {n lease : ℕ} {s s' : Cluster} {i : ℕ} {m : Mon}

/-- The last time `a` wrote version `V`, in a history with the latest first: the
blob, and the number it was accepted under. -/
def lastPut (a V : ℕ) : List (ℕ × Effect) → Option (Blob × Option ℕ)
  | [] => none
  | (b, .putBl v w u) :: l => if b = a ∧ v = V then some (w, u) else lastPut a V l
  | (_, .putLastPn _) :: l => lastPut a V l
  | (_, .putAcceptedPn _) :: l => lastPut a V l
  | (_, .putLastCommitted _) :: l => lastPut a V l
  | (_, .send _ _) :: l => lastPut a V l
  | (_, .finishContexts _ _) :: l => lastPut a V l

/-- A LAST with a value for its next version, sent after the history `l`, reports
the number under which that value was accepted. -/
def Reported (l : List (ℕ × Effect)) : ℕ × Effect → Prop
  | (a, .send _ M) => M.op = .last → M.lastCommitted + 1 ∈ M.values.map Prod.fst →
      lastPut a (M.lastCommitted + 1) l =
        some (M.value (M.lastCommitted + 1), some M.uncommittedPn)
  | _ => True

theorem mem_of_lastPut {a V : ℕ} {w : Blob} {u : Option ℕ} : ∀ {l : List (ℕ × Effect)},
    lastPut a V l = some (w, u) → (a, .putBl V w u) ∈ l
  | [], h => by cases h
  | (b, e) :: l, h => by
    cases e with
    | putBl v w' u' =>
      unfold lastPut at h
      split_ifs at h with hc
      · obtain ⟨rfl, rfl⟩ := hc
        cases h
        exact mem_cons_self
      · exact mem_cons_of_mem _ (mem_of_lastPut h)
    | _ => exact mem_cons_of_mem _ (mem_of_lastPut (l := l) h)

/-- What holds of the stores and of the history in every run that reports
steadily. -/
structure Recorded (s : Cluster) : Prop where
  sent : ∀ {a b m}, m ∈ s.net a b → (a, .send b m) ∈ s.log
  stored : ∀ a V, (s.node a).store.bl V = (lastPut a V s.log).map Prod.fst ∧
    (s.node a).store.under V = (lastPut a V s.log).bind Prod.snd
  onDisk : ∀ a, (s.node a).store.onDisk = true →
    (s.node a).store.under ((s.node a).store.lastCommitted + 1) = some (s.node a).store.acceptedPn
  reports : ∀ {x l}, (x :: l) <:+ s.log → Reported l x
  carried : ∀ {a j M}, (a, .send j M) ∈ s.log → M.op = .last → M.uncommittedPn ≠ 0 →
    M.lastCommitted + 1 ∈ M.values.map Prod.fst

/-- What holds of a running monitor's memory. -/
structure Recollects (s : Cluster) (i : ℕ) (m : Mon) : Prop where
  lastCommitted : m.lastCommitted = (s.node i).store.lastCommitted
  steady : (s.node i).store.steady = true →
    (s.node i).store.under ((s.node i).store.lastCommitted + 1) = some m.acceptedPn
  found : m.uncommittedPn ≠ 0 →
    ∃ a, (a, .putBl m.uncommittedV m.uncommittedValue (some m.uncommittedPn)) ∈ s.log

/-- The condition under which an effect of `i` keeps `Recorded`. -/
def Noted (i : ℕ) (s : Cluster) : Effect → Prop
  | .putBl v _ (some _) => v = (s.node i).store.lastCommitted + 1
  | .send j M => Reported s.log (i, .send j M) ∧
      (M.op = .last → M.uncommittedPn ≠ 0 → M.lastCommitted + 1 ∈ M.values.map Prod.fst)
  | _ => True

/-! ### One effect -/

theorem stored_perform (h : Recorded s) (e : Effect) (a V : ℕ) :
    ((s.perform i e).node a).store.bl V = (lastPut a V ((i, e) :: s.log)).map Prod.fst ∧
      ((s.perform i e).node a).store.under V = (lastPut a V ((i, e) :: s.log)).bind Prod.snd := by
  by_cases ha : a = i
  · subst ha
    rw [perform_store]
    cases e with
    | putBl v w u =>
      by_cases hv : v = V
      · subst hv
        simp [Store.perform, lastPut]
      · have h1 : (Function.update (s.node a).store.bl v (some w)) V = (s.node a).store.bl V :=
          update_of_ne (Ne.symm hv) ..
        have h2 : (Function.update (s.node a).store.under v u) V = (s.node a).store.under V :=
          update_of_ne (Ne.symm hv) ..
        simp only [Store.perform, lastPut, hv, and_false, if_false, h1, h2]
        exact h.stored a V
    | _ => exact h.stored a V
  · rw [perform_node_ne i s ha]
    have hsame : lastPut a V ((i, e) :: s.log) = lastPut a V s.log := by
      cases e with
      | putBl v w u => simp [lastPut, Ne.symm ha]
      | _ => rfl
    rw [hsame]
    exact h.stored a V

variable {e : Effect} {es : List Effect} {c : MMonPaxos}

theorem onDisk_perform (h : Recorded s) (he : Noted i s e) (a : ℕ)
    (hd : ((s.perform i e).node a).store.onDisk = true) :
    ((s.perform i e).node a).store.under (((s.perform i e).node a).store.lastCommitted + 1) =
      some ((s.perform i e).node a).store.acceptedPn := by
  by_cases ha : a = i
  swap
  · rw [perform_node_ne i s ha] at hd ⊢
    exact h.onDisk a hd
  subst ha
  rw [perform_store] at hd ⊢
  cases e with
  | putBl v w u =>
    have hu : u = some (s.node a).store.acceptedPn := by simpa [Store.perform] using hd
    subst hu
    have hv : v = (s.node a).store.lastCommitted + 1 := he
    subst hv
    simp [Store.perform]
  | putLastPn p => exact h.onDisk a hd
  | putAcceptedPn p => exact absurd hd (by simp [Store.perform])
  | putLastCommitted v => exact absurd hd (by simp [Store.perform])
  | send j M => exact h.onDisk a hd
  | finishContexts w b => exact h.onDisk a hd

/-- **One effect.** -/
theorem Recorded.perform (h : Recorded s) (he : Noted i s e) : Recorded (s.perform i e) := by
  refine ⟨?_, stored_perform h e, onDisk_perform h he, ?_, ?_⟩
  · intro a b m hm
    rcases mem_perform_net.mp hm with hm | ⟨rfl, rfl⟩
    · exact mem_cons_of_mem _ (h.sent hm)
    · exact mem_cons_self
  · intro x l hx
    rcases suffix_cons_iff.mp hx with heq | hx
    · cases heq
      cases e with
      | send j M => exact he.1
      | _ => trivial
    · exact h.reports hx
  · intro a j M hM hop hu
    rw [perform_log, mem_cons, Prod.mk.injEq] at hM
    rcases hM with ⟨rfl, rfl⟩ | hM
    · exact he.2 hop hu
    · exact h.carried hM hop hu

abbrev Notes (i : ℕ) (s : Cluster) (es : List Effect) : Prop := Chain (Cluster.perform i) (Noted i) s es

theorem Recorded.performAll (h : Recorded s) (he : Notes i s es) : Recorded (s.performAll i es) :=
  Chain.inv (P := Recorded) (fun _ _ hP hF => hP.perform hF) he h

theorem Recorded.accepted (h : Recorded s) {a j : ℕ} {M : MMonPaxos} (hM : (a, .send j M) ∈ s.log)
    (hop : M.op = .last) (hu : M.uncommittedPn ≠ 0) :
    (a, .putBl (M.lastCommitted + 1) (M.value (M.lastCommitted + 1)) (some M.uncommittedPn)) ∈ s.log := by
  obtain ⟨l1, l2, hl⟩ := append_of_mem hM
  have hsuf : ((a, .send j M) :: l2) <:+ s.log := ⟨l1, hl.symm⟩
  have hput := mem_of_lastPut (h.reports hsuf hop (h.carried hM hop hu))
  rw [hl]
  exact mem_append_right _ (mem_cons_of_mem _ hput)

/-! ### The handlers -/

/-- Effects that note nothing: neither an accepted value nor a LAST. -/
def Effect.Bare : Effect → Prop
  | .putBl _ _ (some _) => False
  | .send _ m => m.op ≠ .last
  | _ => True

theorem noted_bare (h : e.Bare) : Noted i s e := by
  cases e with
  | putBl v w u =>
    cases u with
    | none => trivial
    | some c => exact h.elim
  | send j M => exact ⟨fun hop => absurd hop h, fun hop => absurd hop h⟩
  | _ => trivial

theorem notes_bare (h : ∀ e ∈ es, e.Bare) : Notes i s es := by
  induction es generalizing s with
  | nil => trivial
  | cons e es ih =>
    refine ⟨noted_bare (h e mem_cons_self), ih fun e' he' => ?_⟩
    exact h e' (mem_cons_of_mem e he')

theorem Effect.Quiet.bare (h : e.Quiet) : e.Bare := by
  cases e with
  | send j M => rcases h with h | h <;> simp [Effect.Bare, h]
  | finishContexts w b => trivial
  | _ => exact h.elim

theorem Store.performAll_append (st : Store) (es es' : List Effect) :
    st.performAll (es ++ es') = (st.performAll es).performAll es' := foldl_append ..

/-- A store whose last write moved `last_committed`. -/
theorem ends_committed (st : Store) (es : List Effect) (v : ℕ) :
    (st.performAll (es ++ [.putLastCommitted v])).lastCommitted = v ∧
      (st.performAll (es ++ [.putLastCommitted v])).steady = false := by
  rw [Store.performAll_append]
  exact ⟨rfl, rfl⟩

theorem outward_send (j : ℕ) (M : MMonPaxos) : ∀ e ∈ [Effect.send j M], e.Outward := by
  intro e he
  rw [mem_singleton.mp he]
  trivial

theorem Recollects.found_of_eq (h : Recollects s i m) {m' : Mon} (hf : m'.found = m.found)
    (hu : m'.uncommittedPn ≠ 0) :
    ∃ a, (a, .putBl m'.uncommittedV m'.uncommittedValue (some m'.uncommittedPn)) ∈ s.log := by
  obtain ⟨hv, hpn, hval⟩ : m'.uncommittedV = m.uncommittedV ∧ m'.uncommittedPn = m.uncommittedPn ∧
      m'.uncommittedValue = m.uncommittedValue := by
    simpa only [Mon.found, Prod.mk.injEq] using hf
  rw [hpn] at hu
  rw [hv, hpn, hval]
  exact h.found hu

theorem Recollects.outward (h : Recollects s i m) (hes : ∀ e ∈ es, e.Outward) {m' : Mon}
    (hlc : m'.lastCommitted = m.lastCommitted) (hacc : m'.acceptedPn = m.acceptedPn)
    (hf : m'.found = m.found) : Recollects (s.performAll i es) i m' := by
  have hst := outward_performAll (s := s) (i := i) hes
  refine ⟨?_, ?_, fun hu => ?_⟩
  · rw [hst, hlc]
    exact h.lastCommitted
  · rw [hst, hacc]
    exact h.steady
  · obtain ⟨a, ha⟩ := h.found_of_eq hf hu
    exact ⟨a, (mem_performAll_log i s es).mpr (.inl ha)⟩

/-- The same when `last_committed` has just moved. -/
theorem Recollects.committed (h : Recollects s i m) {v : ℕ} {m' : Mon}
    (hlc : m'.lastCommitted = v) (hf : m'.found = m.found) :
    Recollects (s.performAll i (es ++ [.putLastCommitted v])) i m' := by
  obtain ⟨h1, h2⟩ := ends_committed (s.node i).store es v
  refine ⟨?_, fun hs => ?_, fun hu => ?_⟩
  · rw [performAll_store, h1]
    exact hlc
  · rw [performAll_store, h2] at hs
    cases hs
  · obtain ⟨a, ha⟩ := h.found_of_eq hf hu
    exact ⟨a, (mem_performAll_log i s _).mpr (.inl ha)⟩

/-- There is no value for version `lc + 1`, or `accepted_pn` has not moved since
it was accepted. -/
def Settled (st : Store) (lc : ℕ) : Prop := (st.bl (lc + 1)).isSome → st.steady = true

instance (st : Store) (lc : ℕ) : Decidable (Settled st lc) := inferInstanceAs (Decidable (_ → _))

/-- A settled value was accepted under `accepted_pn`. -/
theorem lastPut_of_settled (hR : Recorded s) (h : Recollects s i m)
    (hset : Settled (s.node i).store m.lastCommitted) {b : Blob}
    (hb : (s.node i).store.bl (m.lastCommitted + 1) = some b) :
    lastPut i (m.lastCommitted + 1) s.log = some (b, some m.acceptedPn) := by
  have hunder := h.steady (hset (by rw [hb]; rfl))
  rw [← h.lastCommitted] at hunder
  obtain ⟨h1, h2⟩ := hR.stored i (m.lastCommitted + 1)
  rw [hb] at h1
  rw [hunder] at h2
  obtain ⟨⟨w, u⟩, hput, hw⟩ := map_eq_some_iff.mp h1.symm
  rw [hput] at h2
  have hu : u = some m.acceptedPn := h2.symm
  have hw : w = b := hw
  rw [hput, hw, hu]

/-- **A collect** of a settled value. -/
theorem recollects_collect (hR : Recorded s) (h : Recollects s i m) (hl : m.role = .leader)
    (hset : Settled (s.node i).store m.lastCommitted) (oldpn : ℕ) :
    Notes i s (collect n i (s.node i).store oldpn m).effs ∧
      Recollects (s.performAll i (collect n i (s.node i).store oldpn m).effs) i
        (collect n i (s.node i).store oldpn m).st := by
  obtain ⟨m', hc, heq⟩ := collect_spec n i (s.node i).store m oldpn hl
  rw [heq]
  set p := pickedPn i oldpn m with hp
  refine ⟨notes_bare fun e he => ?_, ?_, fun hs => ?_, fun hu => ?_⟩
  · rcases mem_cons.mp he with rfl | he
    · trivial
    · obtain ⟨d, _, rfl⟩ := List.mem_map.mp he
      simp [Effect.Bare, collectMsg]
  · rw [performAll_store, Out.emit_st, hc.lastCommitted, h.lastCommitted]
    exact (congrArg Store.lastCommitted (Store.performAll_bcast ((s.node i).store.perform (.putLastPn p))
      (others n i m.quorum) (collectMsg m p))).symm
  · rw [performAll_store] at hs
    have hfalse : ((s.node i).store.performAll (.putLastPn p ::
        (others n i m.quorum).map fun d => .send d (collectMsg m p))).steady = false :=
      congrArg Store.steady (Store.performAll_bcast ((s.node i).store.perform (.putLastPn p))
        (others n i m.quorum) (collectMsg m p))
    exact absurd (hs.symm.trans hfalse) (by decide)
  · rw [Out.emit_st] at hu ⊢
    rcases hc.uncommitted with ⟨v, hbl, huv, hupn, hval⟩ | ⟨_, _, hupn, _⟩
    · rw [huv, hupn, hval]
      have hput := mem_of_lastPut (lastPut_of_settled hR h hset hbl)
      exact ⟨i, (mem_performAll_log i s _).mpr (.inl hput)⟩
    · exact absurd hupn hu

theorem mem_storedAbove {st : Store} {lo hi : ℕ} {p : ℕ × Blob} (h : p ∈ storedAbove st lo hi) :
    p.1 ≤ hi := by
  obtain ⟨v, hv, hp⟩ := mem_filterMap.mp h
  obtain ⟨b, _, rfl⟩ := map_eq_some_iff.mp hp
  rw [mem_range'_1] at hv
  omega

/-- **A COLLECT is answered** with a settled value, or with none. -/
theorem noted_reply (hR : Recorded s) (h : Recollects s i m)
    (hset : Settled (s.node i).store m.lastCommitted) {src pn pnFrom : ℕ} {t : Cluster}
    (hlog : lastPut i (m.lastCommitted + 1) t.log = lastPut i (m.lastCommitted + 1) s.log) :
    Noted i t (.send src { lastReply (s.node i).store c m with pn := pn, pnFrom := pnFrom }) := by
  cases hbl : (s.node i).store.bl (m.lastCommitted + 1) with
  | none =>
    have hupn : (lastReply (s.node i).store c m).uncommittedPn = 0 := by simp [lastReply, hbl]
    have hvals : (lastReply (s.node i).store c m).values =
        storedAbove (s.node i).store c.lastCommitted m.lastCommitted := by simp [lastReply, hbl]
    refine ⟨fun _ hkey => ?_, fun _ hu => absurd hupn hu⟩
    obtain ⟨p, hp, hp1⟩ := List.mem_map.mp hkey
    have hle : p.1 ≤ m.lastCommitted := by
      have hp' : p ∈ storedAbove (s.node i).store c.lastCommitted m.lastCommitted := by
        rw [← hvals]
        exact hp
      exact mem_storedAbove hp'
    have hp1 : p.1 = m.lastCommitted + 1 := hp1
    omega
  | some b =>
    have hupn : (lastReply (s.node i).store c m).uncommittedPn = m.acceptedPn := by simp [lastReply, hbl]
    have hkey : m.lastCommitted + 1 ∈ (lastReply (s.node i).store c m).values.map Prod.fst := by
      simp [lastReply, hbl]
    refine ⟨fun _ _ => ?_, fun _ _ => hkey⟩
    have hval : (lastReply (s.node i).store c m).value (m.lastCommitted + 1) = b := by
      show (((storedAbove (s.node i).store c.lastCommitted m.lastCommitted) ++ _).lookup
        (m.lastCommitted + 1)).getD [] = b
      rw [lookup_storedAbove_ne _ _ _ _ (Nat.lt_succ_self _), hbl]
      simp
    show lastPut i (m.lastCommitted + 1) t.log =
      some ((lastReply (s.node i).store c m).value (m.lastCommitted + 1),
        some (lastReply (s.node i).store c m).uncommittedPn)
    rw [hval, hupn, hlog]
    exact lastPut_of_settled hR h hset hbl

/-- What a handler of `i` does to the history and to its memory. -/
structure Keeps (s : Cluster) (i : ℕ) (o : Handled) : Prop where
  notes : Notes i s o.effs
  recollects : o.ok = true → Recollects (s.performAll i o.effs) i o.st

theorem keeps_check (m : Mon) : Keeps s i (.check m false) := ⟨trivial, fun h => Bool.noConfusion h⟩

theorem Keeps.andThen {o : Handled} {f : Mon → Handled} (h : Keeps s i o)
    (hf : Recollects (s.performAll i o.effs) i o.st → Keeps (s.performAll i o.effs) i (f o.st)) :
    Keeps s i (o.andThen f) := by
  unfold Out.andThen
  split_ifs with hok
  · have h2 := hf (h.recollects hok)
    refine ⟨(chain_append _ _ s).mpr ⟨h.notes, h2.notes⟩, fun hok' => ?_⟩
    rw [performAll_append]
    exact h2.recollects hok'
  · exact ⟨h.notes, fun hok' => absurd hok' hok⟩

theorem keeps_quiet (h : Recollects s i m) {o : Handled} (hq : ∀ e ∈ o.effs, e.Quiet) (hc : Calm m o.st) :
    Keeps s i o :=
  ⟨notes_bare fun e he => (hq e he).bare,
    fun _ => h.outward (fun e he => (hq e he).outward) hc.lastCommitted hc.acceptedPn hc.found⟩

theorem bare_bcast {ds : List ℕ} {M : MMonPaxos} (h : M.op ≠ .last) :
    ∀ e ∈ ds.map fun d => Effect.send d M, e.Bare := by
  intro e he
  obtain ⟨d, _, rfl⟩ := List.mem_map.mp he
  exact h

section

variable (h : Recollects s i m)
include h

theorem Recollects.accepted (v : Blob) {m' : Mon}
    (hlc : m'.lastCommitted = m.lastCommitted) (hacc : m'.acceptedPn = m.acceptedPn)
    (hf : m'.found = m.found) :
    Recollects (s.perform i (.putBl (m.lastCommitted + 1) v (some m.acceptedPn))) i m' := by
  refine ⟨?_, fun _ => ?_, fun hu => ?_⟩
  · rw [perform_store, hlc]
    exact h.lastCommitted
  · rw [perform_store, hacc]
    show Function.update (s.node i).store.under (m.lastCommitted + 1) (some m.acceptedPn)
      ((s.node i).store.lastCommitted + 1) = some m.acceptedPn
    rw [← h.lastCommitted, update_self]
  · obtain ⟨a, ha⟩ := h.found_of_eq hf hu
    exact ⟨a, mem_cons_of_mem _ ha⟩

theorem Recollects.noted_accepted (v : Blob) :
    Noted i s (.putBl (m.lastCommitted + 1) v (some m.acceptedPn)) :=
  congrArg (· + 1) h.lastCommitted

/-- **`begin`** accepts the leader's own value. -/
theorem keeps_begin (v : Blob) : Keeps s i (begin n i v m) := by
  rcases begin_cases n i m v with ⟨m', heq⟩ | ⟨_, _, m', es, heq, _, _, _, hacc, hlc, hf, M, rfl, hop⟩ |
    ⟨_, _, _, _, _, heq⟩
  · rw [heq]
    exact keeps_check m'
  · rw [heq]
    have hM : M.op ≠ .last := by
      rw [hop]
      decide
    refine ⟨⟨h.noted_accepted v, trivial, notes_bare fun e he => ?_⟩, fun _ => ?_⟩
    · rcases mem_append.mp he with he | he
      · exact bare_bcast hM e he
      · exact (quiet_wakeAll he).bare
    · have h1 : Recollects (s.performAll i ([.putBl (m.lastCommitted + 1) v (some m.acceptedPn)] ++
          [.putLastCommitted (m.lastCommitted + 1)])) i m' := h.committed hlc hf
      refine h1.outward (fun e he => ?_) rfl rfl rfl
      rcases mem_append.mp he with he | he
      · exact outward_bcast _ M e he
      · exact (quiet_wakeAll he).outward
  · rw [heq]
    have hM : (beginMsg v m).op ≠ .last := fun h => (by cases h)
    refine ⟨⟨h.noted_accepted v, notes_bare (bare_bcast hM)⟩, fun _ => ?_⟩
    have h1 := h.accepted v rfl rfl rfl
    exact h1.outward (outward_bcast _ (beginMsg v m)) rfl rfl rfl

/-- **A BEGIN.** -/
theorem keeps_handleBegin (src : ℕ) (b : MMonPaxos) : Keeps s i (handleBegin src b m) := by
  rcases handleBegin_cases m src b with ⟨heffs, hst⟩ | ⟨_, _, heq⟩
  · refine ⟨?_, fun _ => ?_⟩
    · rw [heffs]
      trivial
    · rw [heffs, hst]
      exact h
  · rw [heq]
    refine ⟨⟨h.noted_accepted _, noted_bare fun hop => (by cases hop), trivial⟩, fun _ => ?_⟩
    have h1 := h.accepted (b.value (m.lastCommitted + 1)) rfl rfl rfl
    exact h1.outward (outward_send src _) rfl rfl rfl

/-- **An ACCEPT.** -/
theorem keeps_handleAccept (src now : ℕ) (a : MMonPaxos) :
    Keeps s i (handleAccept n i lease src a now m) := by
  rcases handleAccept_cases n i lease m src a now with ⟨heffs, hst⟩ | ⟨_, _, _, _, heq⟩
  · refine ⟨?_, fun _ => ?_⟩
    · rw [heffs]
      trivial
    · rw [heffs, hst]
      exact h
  · rw [heq]
    have hcount : Keeps s i (countAccept n i src m) := by
      rcases countAccept_cases n i m src with ⟨_, hc⟩ | ⟨_, hc⟩
      · rw [hc]
        have hM : (commitMsg m).op ≠ .last := fun h => (by cases h)
        refine ⟨⟨trivial, notes_bare (bare_bcast hM)⟩, fun _ => ?_⟩
        have h1 : Recollects (s.performAll i ([] ++ [.putLastCommitted (m.lastCommitted + 1)])) i
            { m with lastCommitted := m.lastCommitted + 1 } := h.committed rfl rfl
        exact h1.outward (outward_bcast _ (commitMsg m)) rfl rfl rfl
      · rw [hc]
        exact ⟨trivial, fun _ => ⟨h.lastCommitted, h.steady, h.found⟩⟩
    refine hcount.andThen fun hm => ?_
    rcases finishAccepts_cases n i lease (countAccept n i src m).st now with ⟨_, hf⟩ | ⟨_, hq, _, hcalm⟩
    · rw [hf]
      exact ⟨trivial, fun _ => hm⟩
    · refine ⟨notes_bare fun e he => (hq e he).bare, fun _ => ?_⟩
      exact hm.outward (fun e he => (hq e he).outward) hcalm.lastCommitted hcalm.acceptedPn hcalm.found

/-- **A COMMIT.** -/
theorem keeps_handleCommit (hp : m.role = .peon) (c : MMonPaxos) :
    Keeps s i (handleCommit c m) := by
  obtain ⟨ws, _, _, hst, heffs⟩ := handleCommit_spec m c hp
  have hbare : ∀ e ∈ ws.map (fun p => Effect.putBl p.1 p.2 none), e.Bare := by
    intro e he
    obtain ⟨p, _, rfl⟩ := List.mem_map.mp he
    trivial
  rcases heffs with ⟨heffs, hfail⟩ | heffs
  · refine ⟨?_, fun hok => absurd (hfail.symm.trans hok) (by decide)⟩
    rw [heffs]
    exact notes_bare hbare
  · refine ⟨?_, fun _ => ?_⟩
    · rw [heffs]
      refine notes_bare fun e he => ?_
      rcases mem_append.mp he with he | he
      · exact hbare e he
      · rw [mem_singleton.mp he]
        trivial
    · rw [heffs, hst]
      exact h.committed rfl rfl

end

/-- **A COLLECT.** -/
theorem keeps_handleCollect (hR : Recorded s) (h : Recollects s i m) (hp : m.role = .peon)
    (hset : Settled (s.node i).store m.lastCommitted) (src : ℕ) (c : MMonPaxos) :
    Keeps s i (handleCollect (s.node i).store src c m) := by
  rcases handleCollect_cases (s.node i).store m src c hp with heq | ⟨_, heq⟩ | ⟨_, heq⟩
  · rw [heq]
    exact keeps_check _
  · rw [heq]
    refine ⟨⟨trivial, noted_reply hR h hset rfl, trivial⟩, fun _ => ⟨?_, fun hs => ?_, fun hu => ?_⟩⟩
    · rw [performAll_store]
      exact h.lastCommitted
    · rw [performAll_store] at hs
      cases hs
    · obtain ⟨a, ha⟩ := h.found hu
      exact ⟨a, (mem_performAll_log i s _).mpr (.inl ha)⟩
  · rw [heq]
    refine ⟨⟨noted_reply hR h hset rfl, trivial⟩, fun _ => ?_⟩
    exact h.outward (outward_send src _) rfl rfl rfl

theorem keeps_learned (h : Recollects s i m) (src : ℕ) (c : MMonPaxos) :
    Keeps s i (.emit (withLearned c m) (shared (s.node i).store src c m ++ learned c m)) := by
  have hshared : ∀ e ∈ shared (s.node i).store src c m, e.Bare ∧ e.Outward := by
    intro e he
    unfold shared at he
    split_ifs at he with hlt
    · rw [mem_singleton.mp he]
      exact ⟨fun hop => (by cases hop), trivial⟩
    · cases he
  by_cases hgt : c.lastCommitted > m.lastCommitted
  · have hl : learned c m = ((List.range' (m.lastCommitted + 1) (c.lastCommitted - m.lastCommitted)).map
        fun v => .putBl v (c.value v) none) ++ [.putLastCommitted c.lastCommitted] := by
      rw [learned, if_pos hgt]
    rw [hl, ← List.append_assoc]
    refine ⟨notes_bare fun e he => ?_, fun _ => h.committed (max_eq_right hgt.le) rfl⟩
    simp only [Out.emit_effs, mem_append, List.mem_map, mem_singleton] at he
    rcases he with (he | ⟨v, _, rfl⟩) | rfl
    · exact (hshared e he).1
    · trivial
    · trivial
  · have hl : learned c m = [] := by rw [learned, if_neg hgt]
    rw [hl, append_nil]
    refine ⟨notes_bare fun e he => (hshared e he).1, fun _ => ?_⟩
    exact h.outward (fun e he => (hshared e he).2) (max_eq_left (not_lt.mp hgt)) rfl rfl

theorem recollects_countLast (hR : Recorded s) (h : Recollects s i m) {src : ℕ}
    (hM : (src, .send i c) ∈ s.log) (hop : c.op = .last) : Recollects s i (countLast src c m) := by
  unfold countLast
  dsimp only
  split_ifs with hc
  · exact ⟨h.lastCommitted, h.steady, fun hu => ⟨src, hR.accepted hM hop hu⟩⟩
  · exact ⟨h.lastCommitted, h.steady, h.found⟩

theorem keeps_finishLasts (h : Recollects s i m) (now : ℕ) : Keeps s i (finishLasts n i lease now m) := by
  have h' : Recollects s i { m with state := .active } := ⟨h.lastCommitted, h.steady, h.found⟩
  rcases finishLasts_cases n i lease m now with ⟨_, heq⟩ | ⟨_, _, _, heq⟩ | ⟨_, _, hq, _, hc⟩
  · rw [heq]
    exact ⟨trivial, fun _ => h⟩
  · rw [heq]
    exact keeps_begin h' _
  · exact keeps_quiet h' hq hc

theorem learned_bl (st : Store) (c : MMonPaxos) (m : Mon) (hgt : m.lastCommitted < c.lastCommitted) :
    (st.performAll (learned c m)).bl (c.lastCommitted + 1) = st.bl (c.lastCommitted + 1) := by
  have key : ∀ (vs : List ℕ) (st : Store), (∀ v ∈ vs, v ≤ c.lastCommitted) →
      (st.performAll (vs.map fun v => .putBl v (c.value v) none)).bl (c.lastCommitted + 1) =
        st.bl (c.lastCommitted + 1) := by
    intro vs
    induction vs with
    | nil => exact fun _ _ => rfl
    | cons v vs ih =>
      intro st hvs
      have hv := hvs v mem_cons_self
      refine (ih _ fun w hw => hvs w (mem_cons_of_mem v hw)).trans ?_
      exact update_of_ne (by omega) ..
  rw [learned, if_pos hgt, Store.performAll_append]
  refine key _ st fun v hv => ?_
  rw [mem_range'_1] at hv
  omega

theorem learned_store (src : ℕ) (c : MMonPaxos) (m : Mon) :
    ((s.performAll i (shared (s.node i).store src c m ++ learned c m)).node i).store =
      (s.node i).store.performAll (learned c m) := by
  rw [performAll_append, performAll_store, outward_performAll]
  intro e he
  unfold shared at he
  split_ifs at he with hlt
  · rw [mem_singleton.mp he]
    trivial
  · cases he

/-- The condition on a LAST that makes the leader collect again: it has no value
for the next version, or the LAST brings no committed values and `accepted_pn`
has not moved since it was accepted. -/
def SettledLast (nd : Node) (c : MMonPaxos) : Prop :=
  (nd.store.bl (max nd.mon.lastCommitted c.lastCommitted + 1)).isSome →
    c.lastCommitted ≤ nd.mon.lastCommitted ∧ nd.store.steady = true

instance (nd : Node) (c : MMonPaxos) : Decidable (SettledLast nd c) := inferInstanceAs (Decidable (_ → _))

theorem SettledLast.settled {nd : Node} (h : SettledLast nd c) :
    Settled (nd.store.performAll (learned c nd.mon)) (withLearned c nd.mon).lastCommitted := by
  intro hsome
  by_cases hgt : c.lastCommitted > nd.mon.lastCommitted
  · have hmax : (withLearned c nd.mon).lastCommitted = c.lastCommitted := max_eq_right hgt.le
    rw [hmax, learned_bl nd.store c nd.mon hgt] at hsome
    have hmax' : max nd.mon.lastCommitted c.lastCommitted = c.lastCommitted := max_eq_right hgt.le
    have h2 := h (by rw [hmax']; exact hsome)
    omega
  · have hl : learned c nd.mon = [] := by rw [learned, if_neg hgt]
    rw [hl] at hsome ⊢
    exact (h hsome).2

/-- **A LAST.** -/
theorem keeps_handleLast (hR : Recorded s) (h : Recollects s i (s.node i).mon) (hl : (s.node i).mon.role = .leader)
    {src : ℕ} (now : ℕ) (hM : (src, .send i c) ∈ s.log) (hop : c.op = .last)
    (hset : (s.node i).mon.acceptedPn < c.pn → SettledLast (s.node i) c) :
    Keeps s i (handleLast n i lease (s.node i).store src c now (s.node i).mon) := by
  set m := (s.node i).mon with hm
  have hlearn := keeps_learned h src c
  have hR' := hR.performAll hlearn.notes
  rcases handleLast_cases n i lease (s.node i).store m src c now hl with ⟨hlt, heq⟩ | ⟨_, heq⟩
  · rw [heq]
    refine hlearn.andThen fun h' => ?_
    have hs : Settled ((s.performAll i (shared (s.node i).store src c m ++ learned c m)).node i).store
        (withLearned c m).lastCommitted := by
      rw [learned_store]
      exact (hset hlt).settled
    have hcol := recollects_collect (n := n) hR' h' hl hs c.pn
    rw [Out.emit_effs, learned_store] at hcol
    exact ⟨hcol.1, fun _ => hcol.2⟩
  · rw [heq]
    have hcount : Keeps s i (.emit (countLast src c (withLearned c m))
        (shared (s.node i).store src c m ++ learned c m)) := by
      refine ⟨hlearn.notes, fun _ => recollects_countLast hR' (hlearn.recollects rfl) ?_ hop⟩
      exact (mem_performAll_log i s _).mpr (.inl hM)
    exact hcount.andThen fun h' => keeps_finishLasts h' now

/-! ### Runs -/

/-- The condition on a message. -/
def SteadyMsg (nd : Node) (c : MMonPaxos) : Prop :=
  (c.op = .collect → nd.mon.role = .peon → Settled nd.store nd.mon.lastCommitted) ∧
  (c.op = .last → nd.mon.role = .leader → nd.mon.acceptedPn < c.pn → SettledLast nd c)

/-- The condition on the events of a run: a monitor that reports a value for the
next version, in a LAST or to itself, has not moved its `accepted_pn` since it
accepted it. -/
def Steady (s : Cluster) : Event → Prop
  | .win i _ q => q.card ≠ 1 → Settled (s.node i).store (s.node i).mon.lastCommitted
  | .deliver i j _ => ∀ c ∈ (s.net i j).head?, c.epoch = (s.node j).mon.monEpoch → SteadyMsg (s.node j) c
  | _ => True

/-- The condition on the actions of a run. -/
abbrev SteadyReports : Cluster → Act → Prop := OnEvents Steady

/-- The invariant. -/
structure Recording (s : Cluster) : Prop where
  recorded : Recorded s
  node : ∀ i, (s.node i).up = true → Recollects s i (s.node i).mon

theorem Recorded.take (h : Recorded s) (hnode : s'.node = s.node) (hlog : s'.log = s.log)
    (hnet : ∀ a b, (s'.net a b).Sublist (s.net a b)) : Recorded s' := by
  refine ⟨?_, ?_, ?_, ?_, ?_⟩
  · intro a b m hm
    rw [hlog]
    exact h.sent ((hnet a b).subset hm)
  · rw [hnode, hlog]
    exact h.stored
  · rw [hnode]
    exact h.onDisk
  · rw [hlog]
    exact h.reports
  · rw [hlog]
    exact h.carried

theorem Recollects.same {m : Mon} (h : Recollects s i m) (hst : (s'.node i).store = (s.node i).store)
    (hlog : ∀ x ∈ s.log, x ∈ s'.log) : Recollects s' i m := by
  refine ⟨?_, ?_, fun hu => ?_⟩
  · rw [hst]
    exact h.lastCommitted
  · rw [hst]
    exact h.steady
  · obtain ⟨a, ha⟩ := h.found hu
    exact ⟨a, hlog _ ha⟩

/-- **A monitor's own step.** -/
theorem keeps_move (h : Recording s) (hup : (s.node i).up = true) {s1 : Cluster} {ev : Event}
    {o : Handled} (hm : Move n lease s i ev s1 o) (hc : Steady s ev) : Keeps s1 i o := by
  have hR := h.recorded
  have hi := h.node i hup
  have hR₁ : ∀ src, Recorded (s.received src i) :=
    fun src => hR.take rfl rfl fun a b => received_sublist src a b
  have hi1 : ∀ src, Recollects (s.received src i) i (s.node i).mon :=
    fun src => hi.same rfl fun _ hx => hx
  have hhead : ∀ {src : ℕ} {c : MMonPaxos} {ms : List MMonPaxos}, s.net src i = c :: ms →
      c ∈ (s.net src i).head? ∧ (src, .send i c) ∈ s.log := by
    intro src c ms hnet
    refine ⟨by rw [hnet]; rfl, hR.sent ?_⟩
    rw [hnet]
    exact mem_cons_self
  cases hm with
  | quiet hs hq hcalm =>
    rcases hs with rfl | ⟨src, rfl⟩
    · exact keeps_quiet hi hq hcalm
    · exact keeps_quiet (hi1 src) hq hcalm
  | alone e q hq h1 => exact ⟨trivial, fun _ => ⟨hi.lastCommitted, hi.steady, hi.found⟩⟩
  | win e q hq h1 =>
    have hi' : Recollects s i (elected i e q (s.node i).mon) := ⟨hi.lastCommitted, hi.steady, hi.found⟩
    have hcol := recollects_collect (n := n) hR hi' rfl (hc h1) 0
    exact ⟨hcol.1, fun _ => hcol.2⟩
  | propose v hv hl hst =>
    have hi' : Recollects s i (cancelEvents (s.node i).mon) := ⟨hi.lastCommitted, hi.steady, hi.found⟩
    exact keeps_begin hi' v
  | collect src now c ms hnet hop he hp =>
    have hset := (hc c (hhead hnet).1 he).1 hop hp
    exact keeps_handleCollect (hR₁ src) (hi1 src) hp hset src c
  | last src now c ms hnet hop he hl =>
    have hset := (hc c (hhead hnet).1 he).2 hop hl
    exact keeps_handleLast (hR₁ src) (hi1 src) hl now (hhead hnet).2 hop hset
  | begin src now c ms hnet hop he hr => exact keeps_handleBegin (hi1 src) src c
  | accept src now c ms hnet hop he hr => exact keeps_handleAccept (hi1 src) src now c
  | commit src now c ms hnet hop he hp => exact keeps_handleCommit (hi1 src) hp c

theorem recording_fresh : Recording fresh := by
  refine ⟨⟨?_, ?_, ?_, ?_, ?_⟩, ?_⟩ <;> simp [fresh, Links.empty, Store.mkfs, lastPut]

/-- A restarted monitor has the stored `accepted_pn`. -/
theorem recording_restart (h : Recording s) (i : ℕ) : Recording (s.restart i) := by
  have hst : ∀ a, ((s.restart i).node a).store.bl = (s.node a).store.bl ∧
      ((s.restart i).node a).store.under = (s.node a).store.under ∧
      ((s.restart i).node a).store.onDisk = (s.node a).store.onDisk ∧
      ((s.restart i).node a).store.lastCommitted = (s.node a).store.lastCommitted ∧
      ((s.restart i).node a).store.acceptedPn = (s.node a).store.acceptedPn := by
    intro a
    by_cases ha : a = i
    · subst ha
      rw [restart_node]
      exact ⟨rfl, rfl, rfl, rfl, rfl⟩
    · rw [restart_node_ne i s ha]
      exact ⟨rfl, rfl, rfl, rfl, rfl⟩
  have hR := h.recorded
  refine ⟨⟨hR.sent, fun a V => ?_, fun a hd => ?_, hR.reports, hR.carried⟩, fun j hj => ?_⟩
  · obtain ⟨h1, h2, _⟩ := hst a
    rw [h1, h2]
    exact hR.stored a V
  · obtain ⟨_, h2, h3, h4, h5⟩ := hst a
    rw [h2, h4, h5]
    exact hR.onDisk a (h3 ▸ hd)
  · by_cases hji : j = i
    · subst hji
      rw [restart_node]
      refine ⟨?_, fun hs => ?_, fun hu => absurd rfl hu⟩
      · rw [restart_node]
        rfl
      · rw [restart_node] at hs ⊢
        exact hR.onDisk j hs
    · rw [restart_node_ne i s hji] at hj ⊢
      exact (h.node j hj).same (by rw [restart_node_ne i s hji]) fun _ hx => hx

/-- **Every step keeps it.** -/
theorem recorded_step {a : Act} (h : Recording s) (hc : SteadyReports s a) (hs : step n lease s a = some s') :
    Recording s' := by
  rcases step_cases hs with ⟨ev, i, s1, o, es, m, up, ha, ⟨_, hup⟩, hm, hes, hfull, rfl⟩ |
    ⟨i, rfl, _, _, rfl⟩ | ⟨i, j, k, rfl, rfl⟩
  · have hev : Steady s ev := by
      rcases ha with rfl | ⟨k, rfl⟩
      · exact hc
      · exact hc
    have hkeeps := keeps_move h hup hm hev
    have hR₁ : Recorded s1 := h.recorded.take hm.same.1 hm.same.2 fun a b => (hm.net_sublist a b).1
    have hR := hR₁.performAll (hkeeps.notes.of_prefix hes)
    set t := s1.performAll i es with ht
    have hstores : ∀ a, ((t.become i m up).node a).store = (t.node a).store := by
      intro a
      by_cases ha : a = i
      · subst ha
        rw [become_node]
      · rw [become_node_ne i t ha]
    refine ⟨⟨hR.sent, fun a V => ?_, fun a hd => ?_, hR.reports, hR.carried⟩, fun j hj => ?_⟩
    · rw [hstores]
      exact hR.stored a V
    · rw [hstores] at hd ⊢
      exact hR.onDisk a hd
    · by_cases hji : j = i
      · subst hji
        rw [become_node] at hj ⊢
        obtain ⟨rfl, rfl, hok⟩ := hfull hj
        exact (hkeeps.recollects hok).same (hstores j) fun _ hx => hx
      · have hsame : t.node j = s.node j := by
          rw [ht, performAll_node_ne i s1 es hji, hm.same.1]
        rw [become_node_ne i t hji, hsame] at hj ⊢
        refine (h.node j hj).same (by rw [hstores, hsame]) fun x hx => ?_
        refine (mem_performAll_log i s1 es).mpr (.inl ?_)
        rw [hm.same.2]
        exact hx
  · exact recording_restart h i
  · refine ⟨h.recorded.take rfl rfl (s.net.take_sublist i j k), fun a ha => ?_⟩
    exact (h.node a ha).same rfl fun _ hx => hx

/-- **The reported number.** In every run that meets the condition, a LAST with a
value for its next version reports the number under which its sender accepted
that value; so what a leader has found was accepted under the number it takes
it for, and of two values it keeps the one with the higher number. -/
theorem reported_pn (n lease : ℕ) {s : Cluster} (h : Run.Reach (step n lease) SteadyReports fresh s) :
    (∀ a j M l, ((a, .send j M) :: l) <:+ s.log → M.op = .last →
      M.lastCommitted + 1 ∈ M.values.map Prod.fst →
      lastPut a (M.lastCommitted + 1) l =
        some (M.value (M.lastCommitted + 1), some M.uncommittedPn)) ∧
    (∀ i, (s.node i).up = true → (s.node i).mon.uncommittedPn ≠ 0 →
      ∃ a, (a, .putBl (s.node i).mon.uncommittedV (s.node i).mon.uncommittedValue
        (some (s.node i).mon.uncommittedPn)) ∈ s.log) ∧
    (∀ i src last, (countLast src last (s.node i).mon).found =
      if (s.node i).mon.uncommittedPn < last.uncommittedPn then
        (last.lastCommitted + 1, last.uncommittedPn, last.value (last.lastCommitted + 1))
      else (s.node i).mon.found) := by
  have hR : Recording s := h.inv Recording recording_fresh fun _ _ _ hP hc hs => recorded_step hP hc hs
  refine ⟨fun a j M l hl hop hkey => hR.recorded.reports hl hop hkey, fun i hup hu => ?_, ?_⟩
  · exact (hR.node i hup).found hu
  · intro i src last
    unfold countLast
    dsimp only
    split_ifs with h1 h2 h2
    · rfl
    · omega
    · omega
    · rfl

instance (nd : Node) (c : MMonPaxos) : Decidable (SteadyMsg nd c) :=
  inferInstanceAs (Decidable (_ ∧ _))

instance : ∀ (s : Cluster) (ev : Event), Decidable (Steady s ev)
  | _, .win _ _ _ => inferInstanceAs (Decidable (_ → _))
  | _, .deliver _ _ _ => inferInstanceAs (Decidable (∀ _ ∈ _, _ → _))
  | _, .lose _ _ _ | _, .propose _ _ | _, .callElection _ | _, .leaseRenew _ _ => isTrue trivial

instance : ∀ (s : Cluster) (a : Act), Decidable (SteadyReports s a)
  | s, .run ev => inferInstanceAs (Decidable (Steady s ev))
  | s, .cut ev _ => inferInstanceAs (Decidable (Steady s ev))
  | _, .restart _ => isTrue trivial
  | _, .drop _ _ _ => isTrue trivial

/-- Monitor 1 accepts a value from monitor 0 under 100; 0 wins again, and 1
answers its COLLECT. -/
def valueReported : List Act :=
  [.restart 0, .restart 1, .restart 2,
    .run (.win 0 2 {0, 1, 2}), .run (.lose 1 2 0), .run (.lose 2 2 0),
    .run (.deliver 0 1 0), .run (.deliver 0 2 0), .run (.deliver 1 0 0), .run (.deliver 2 0 0),
    .run (.propose 0 [1]), .run (.deliver 0 1 0), .run (.deliver 0 1 0),
    .run (.win 0 4 {0, 1, 2}), .run (.lose 1 4 0), .run (.deliver 0 1 0)]

theorem reported_pn_first : ∃ s M l, Run.Reach (step 3 5) SteadyReports fresh s ∧
    s.log = (1, .send 0 M) :: l ∧ M.op = .last ∧ M.uncommittedPn = 100 ∧
    lastPut 1 1 l = some ([1], some 100) := by
  have hrun : (Run.exec (step 3 5) SteadyReports valueReported fresh).map (fun s =>
      decide (s.log.head? = some (1, .send 0
        { op := .last, epoch := 4, pn := 200, uncommittedPn := 100, values := [(1, [1])] }))) = some true := by
    decide +kernel
  obtain ⟨s, hs, hd⟩ := map_eq_some_iff.mp hrun
  obtain ⟨l, hl⟩ := head?_eq_some_iff.mp (of_decide_eq_true hd)
  have hr := Run.reach_of_exec hs
  refine ⟨s, _, l, hr, hl, rfl, rfl, ?_⟩
  exact (reported_pn 3 5 hr).1 1 0 _ l (by rw [hl]) rfl (by decide)

/-- When 0 wins once more, 1 reports the same value under 200, the number of the
first COLLECT, under which nothing was ever proposed. -/
theorem reported_pn_moved : ∃ s M l, Run.Reach (step 3 5) Run.anyAct fresh s ∧
    s.log = (1, .send 0 M) :: l ∧ M.op = .last ∧ M.lastCommitted + 1 ∈ M.values.map Prod.fst ∧
    lastPut 1 (M.lastCommitted + 1) l = some ([1], some 100) ∧ M.uncommittedPn = 200 := by
  have hrun : (Run.exec (step 3 5) Run.anyAct
      (valueReported ++ [.run (.win 0 6 {0, 1, 2}), .run (.lose 1 6 0), .run (.deliver 0 1 0)]) fresh).map
      (fun s => decide (lastPut 1 1 s.log.tail = some ([1], some 100) ∧ s.log.head? = some (1, .send 0
        { op := .last, epoch := 6, pn := 300, uncommittedPn := 200, values := [(1, [1])] }))) = some true := by
    decide +kernel
  obtain ⟨s, hs, hd⟩ := map_eq_some_iff.mp hrun
  obtain ⟨hput, hhead⟩ := of_decide_eq_true hd
  obtain ⟨l, hl⟩ := head?_eq_some_iff.mp hhead
  rw [hl] at hput
  exact ⟨s, _, l, Run.reach_of_exec hs, hl, rfl, by decide, hput, rfl⟩

end Paxos
end Ceph
