/-
# A cluster of monitors

The monitors of one map, each with its memory and its store, and the links
between them. The elections are the environment's: any monitor may win one
with a majority that it belongs to, or lose one. Links are FIFO, and may lose
messages. A crash may come between any two effects of a handler (`Act.cut`),
after a failed assertion, or between handlers (a cut before the first
effect); `Act.restart` is `Paxos::init` on what the store then holds.
-/
import Ceph.Lib.Links
import Ceph.Lib.Run
import Ceph.Mon.Paxos

namespace Ceph
namespace Paxos

open List Option Out

/-- A monitor. While it is down, its memory is lost. -/
structure Node where
  up : Bool
  mon : Mon
  store : Store

/-- The monitors, the messages in flight, and all the effects so far with who
performed them, latest first. -/
structure Cluster where
  node : ℕ → Node
  net : Links MMonPaxos
  log : List (ℕ × Effect)

/-- Monitors that have been set up and not started. -/
def fresh : Cluster where
  node := fun _ => ⟨false, init .mkfs, .mkfs⟩
  net := .empty
  log := []

namespace Cluster

/-- `i` performs one effect. -/
def perform (i : ℕ) (s : Cluster) (e : Effect) : Cluster where
  node := Function.update s.node i { s.node i with store := (s.node i).store.perform e }
  net := match e with
    | .send j m => s.net.post i j m
    | _ => s.net
  log := (i, e) :: s.log

def performAll (i : ℕ) (s : Cluster) (es : List Effect) : Cluster := es.foldl (perform i) s

/-- `i`'s memory becomes `m`; `up = false` if it died. -/
def become (s : Cluster) (i : ℕ) (m : Mon) (up : Bool) : Cluster :=
  { s with node := Function.update s.node i { s.node i with up := up, mon := m } }

end Cluster

/-- What a monitor can be made to do. `callElection` stands for the timeouts,
`now` is the clock it reads. -/
inductive Event
  | win (i epoch : ℕ) (q : Finset ℕ)
  | lose (i epoch leader : ℕ)
  | deliver (src dst now : ℕ)
  | propose (i : ℕ) (v : Blob)
  | callElection (i : ℕ)
  | leaseRenew (i now : ℕ)
deriving DecidableEq

/-- A quorum of `i`'s, as `Elector::victory` hands it to `win_election`. -/
def IsQuorum (n i : ℕ) (q : Finset ℕ) : Prop := i ∈ q ∧ q ⊆ Finset.range n ∧ n < 2 * q.card

instance (n i : ℕ) (q : Finset ℕ) : Decidable (IsQuorum n i q) :=
  inferInstanceAs (Decidable (_ ∧ _ ∧ _))

/-- `i` is one of the `n` monitors, and running. -/
def Ready (n : ℕ) (s : Cluster) (i : ℕ) : Prop := i < n ∧ (s.node i).up = true

instance (n : ℕ) (s : Cluster) (i : ℕ) : Decidable (Ready n s i) :=
  inferInstanceAs (Decidable (_ ∧ _))

variable (n lease : ℕ)

/-- Who handles an event, the cluster once the message is off its link, and
what the handler does. -/
def start (s : Cluster) : Event → Option (ℕ × Cluster × Handled)
  | .win i e q =>
    if Ready n s i ∧ IsQuorum n i q then
      some (i, s, winElection n i (s.node i).store e q (s.node i).mon)
    else none
  | .lose i e l => if Ready n s i then some (i, s, loseElection e l (s.node i).mon) else none
  | .deliver i j now =>
    match s.net i j with
    | [] => none
    | m :: _ =>
      if Ready n s j then
        some (j, { s with net := s.net.take i j 0 },
          dispatch n j lease (s.node j).store i m now (s.node j).mon)
      else none
  -- the services propose encoded maps, never an empty buffer
  | .propose i v =>
    if Ready n s i ∧ v ≠ [] then some (i, s, proposeNewValue n i v (s.node i).mon) else none
  | .callElection i => if Ready n s i then some (i, s, callElection n (s.node i).mon) else none
  | .leaseRenew i now =>
    if Ready n s i then some (i, s, leaseRenewTimeout n i lease now (s.node i).mon) else none

/-- The actions of the environment: an event is handled, or only `k` of its
effects are performed before the monitor dies; a monitor restarts; the `k`-th
message of a link is lost. -/
inductive Act
  | run (ev : Event)
  | cut (ev : Event) (k : ℕ)
  | restart (i : ℕ)
  | drop (src dst k : ℕ)
deriving DecidableEq

/-- A monitor starts on what its store holds. -/
def Node.restart (nd : Node) : Node where
  up := true
  mon := init nd.store
  store := { nd.store with steady := nd.store.onDisk }

def Cluster.restart (s : Cluster) (i : ℕ) : Cluster :=
  { s with node := Function.update s.node i (s.node i).restart }

def Cluster.drop (s : Cluster) (i j k : ℕ) : Cluster := { s with net := s.net.take i j k }

/-- One step of the cluster. -/
def step (s : Cluster) : Act → Option Cluster
  | .run ev => (start n lease s ev).map fun p =>
    (p.2.1.performAll p.1 p.2.2.effs).become p.1 p.2.2.st p.2.2.ok
  | .cut ev k => (start n lease s ev).map fun p =>
    (p.2.1.performAll p.1 (p.2.2.effs.take k)).become p.1 (s.node p.1).mon false
  | .restart i =>
    if i < n ∧ (s.node i).up = false then some (s.restart i) else none
  | .drop i j k => some (s.drop i j k)

variable {n lease : ℕ}

/-! ### The effects of a handler -/

/-- The messages to `j` among some effects, in order. -/
def sendsTo (j : ℕ) (es : List Effect) : List MMonPaxos :=
  es.filterMap fun e => match e with
    | .send k m => if k = j then some m else none
    | _ => none

@[simp] theorem sendsTo_nil (j : ℕ) : sendsTo j [] = [] := rfl

@[simp] theorem sendsTo_append (j : ℕ) (es es' : List Effect) :
    sendsTo j (es ++ es') = sendsTo j es ++ sendsTo j es' := filterMap_append ..

@[simp] theorem sendsTo_send (j k : ℕ) (m : MMonPaxos) (es : List Effect) :
    sendsTo j (.send k m :: es) = if k = j then m :: sendsTo j es else sendsTo j es := by
  by_cases h : k = j <;> simp [sendsTo, h]

@[simp] theorem sendsTo_putLastPn (j p : ℕ) (es : List Effect) :
    sendsTo j (.putLastPn p :: es) = sendsTo j es := rfl
@[simp] theorem sendsTo_putAcceptedPn (j p : ℕ) (es : List Effect) :
    sendsTo j (.putAcceptedPn p :: es) = sendsTo j es := rfl
@[simp] theorem sendsTo_putLastCommitted (j v : ℕ) (es : List Effect) :
    sendsTo j (.putLastCommitted v :: es) = sendsTo j es := rfl
@[simp] theorem sendsTo_putBl (j v : ℕ) (b : Blob) (u : Option ℕ) (es : List Effect) :
    sendsTo j (.putBl v b u :: es) = sendsTo j es := rfl
@[simp] theorem sendsTo_finishContexts (j : ℕ) (w : Waiting) (b : Bool) (es : List Effect) :
    sendsTo j (.finishContexts w b :: es) = sendsTo j es := rfl

variable {es : List Effect}

theorem mem_sendsTo {j : ℕ} {m : MMonPaxos} : m ∈ sendsTo j es ↔ .send j m ∈ es := by
  induction es with
  | nil => simp
  | cons e es ih =>
    cases e with
    | send k m' =>
      by_cases h : k = j
      · subst h; simp [ih]
      · simp [h, ih, Ne.symm h]
    | _ => simp [ih]

theorem sendsTo_bcast {ds : List ℕ} (hd : ds.Nodup) (j : ℕ) (m : MMonPaxos) :
    sendsTo j (ds.map fun d => .send d m) = if j ∈ ds then [m] else [] := by
  induction ds with
  | nil => simp
  | cons d ds ih =>
    obtain ⟨hn, hd⟩ := nodup_cons.mp hd
    by_cases h : d = j
    · subst h; simp [ih hd, hn]
    · simp [ih hd, h, Ne.symm h]

theorem Store.performAll_bcast (st : Store) (ds : List ℕ) (m : MMonPaxos) :
    st.performAll (ds.map fun d => .send d m) = st := by
  induction ds generalizing st with
  | nil => rfl
  | cons d ds ih => exact ih (st.perform (.send d m))

theorem mem_others {n me : ℕ} {q : Finset ℕ} {p : ℕ} :
    p ∈ others n me q ↔ p < n ∧ p ∈ q ∧ p ≠ me := by simp [others]

theorem nodup_others (n me : ℕ) (q : Finset ℕ) : (others n me q).Nodup := nodup_range.filter _

namespace Cluster

variable (i : ℕ) (s : Cluster) (es : List Effect)

@[simp] theorem performAll_nil : performAll i s [] = s := rfl

@[simp] theorem performAll_cons (e : Effect) :
    performAll i s (e :: es) = performAll i (perform i s e) es := rfl

theorem performAll_append (es' : List Effect) :
    performAll i s (es ++ es') = performAll i (performAll i s es) es' := foldl_append ..

variable {j : ℕ}

@[simp] theorem perform_node_ne (h : j ≠ i) (e : Effect) :
    (perform i s e).node j = s.node j := by simp [perform, h]

@[simp] theorem perform_store (e : Effect) :
    ((perform i s e).node i).store = (s.node i).store.perform e := by simp [perform]

@[simp] theorem perform_log (e : Effect) : (perform i s e).log = (i, e) :: s.log := rfl

theorem performAll_node_ne (h : j ≠ i) : (performAll i s es).node j = s.node j := by
  induction es generalizing s with
  | nil => rfl
  | cons e es ih => rw [performAll_cons, ih, perform_node_ne i s h]

theorem performAll_store : ((performAll i s es).node i).store = (s.node i).store.performAll es := by
  induction es generalizing s with
  | nil => rfl
  | cons e es ih => rw [performAll_cons, ih, perform_store]; rfl

theorem performAll_net (a b : ℕ) :
    (performAll i s es).net a b = if a = i then s.net a b ++ sendsTo b es else s.net a b := by
  induction es generalizing s with
  | nil => simp
  | cons e es ih =>
    rw [performAll_cons, ih]
    cases e with
    | send k m =>
      by_cases ha : a = i
      · subst ha
        by_cases hk : k = b
        · subst hk; simp [perform]
        · simp [perform, hk, Links.post_ne s.net (i := a) (j := k) m (fun h => hk h.2.symm)]
      · simp [perform, ha, Links.post_ne s.net (i := i) (j := k) m (fun h => ha h.1)]
    | _ => rfl

theorem mem_performAll_log {x : ℕ × Effect} :
    x ∈ (performAll i s es).log ↔ x ∈ s.log ∨ (x.1 = i ∧ x.2 ∈ es) := by
  induction es generalizing s with
  | nil => simp
  | cons e es ih =>
    rw [performAll_cons, ih, perform_log, mem_cons, mem_cons]
    obtain ⟨a, e'⟩ := x
    simp only [Prod.mk.injEq]
    tauto

@[simp] theorem become_node_ne (h : j ≠ i) (m : Mon) (up : Bool) :
    (s.become i m up).node j = s.node j := by simp [become, h]

@[simp] theorem become_node (m : Mon) (up : Bool) :
    (s.become i m up).node i = { s.node i with up := up, mon := m } := by simp [become]

@[simp] theorem restart_node_ne (h : j ≠ i) : (s.restart i).node j = s.node j := by
  simp [restart, h]

@[simp] theorem restart_node : (s.restart i).node i = (s.node i).restart := by simp [restart]

@[simp] theorem become_net (m : Mon) (up : Bool) : (s.become i m up).net = s.net := rfl

end Cluster

/-! ### What a step can do -/

/-- The head of a link is received. -/
def Cluster.received (s : Cluster) (src dst : ℕ) : Cluster := { s with net := s.net.take src dst 0 }

/-- Effects that neither write nor take part in a round. -/
def Effect.Quiet : Effect → Prop
  | .send _ m => m.op = .lease ∨ m.op = .leaseAck
  | .finishContexts _ _ => True
  | _ => False

/-- Messages and wake-ups. -/
def Effect.Outward : Effect → Prop
  | .send _ _ => True
  | .finishContexts _ _ => True
  | _ => False

theorem Effect.Quiet.outward {e : Effect} (h : e.Quiet) : e.Outward := by
  cases e <;> first | exact h.elim | trivial

theorem outward_bcast (ds : List ℕ) (M : MMonPaxos) :
    ∀ e ∈ ds.map fun d => Effect.send d M, e.Outward := by
  intro e he
  obtain ⟨d, _, rfl⟩ := List.mem_map.mp he
  trivial

variable {i : ℕ} {s : Cluster}

theorem outward_performAll (h : ∀ e ∈ es, e.Outward) :
    ((s.performAll i es).node i).store = (s.node i).store := by
  rw [Cluster.performAll_store]
  generalize (s.node i).store = st
  induction es generalizing st with
  | nil => rfl
  | cons e es ih =>
    have he : st.perform e = st := by
      have ho := h e mem_cons_self
      cases e with
      | send j m => rfl
      | finishContexts w b => rfl
      | _ => exact ho.elim
    show (es.foldl Store.perform (st.perform e)) = st
    rw [he]
    exact ih (fun e' he' => h e' (mem_cons_of_mem e he')) st

/-- Two memories of a leader that differ in clocks and timers only. -/
structure SameLead (m m' : Mon) : Prop where
  role : m.role = m'.role
  state : m.state = m'.state
  quorum : m.quorum = m'.quorum
  numLast : m.numLast = m'.numLast
  lastsFrom : m.lastsFrom = m'.lastsFrom
  uncommittedV : m.uncommittedV = m'.uncommittedV
  uncommittedPn : m.uncommittedPn = m'.uncommittedPn
  uncommittedValue : m.uncommittedValue = m'.uncommittedValue
  newValue : m.newValue = m'.newValue
  accepted : m.accepted = m'.accepted

variable {m : Mon}

theorem SameLead.rfl : SameLead m m := by constructor <;> trivial

/-- What a leader has found to propose again. -/
def Mon.found (m : Mon) : ℕ × ℕ × Blob := (m.uncommittedV, m.uncommittedPn, m.uncommittedValue)

/-- A change of memory that touches no number, leaves a leader, if there still
is one, as it was, and starts no update. -/
structure Calm (m m' : Mon) : Prop where
  lastPn : m'.lastPn = m.lastPn
  acceptedPn : m'.acceptedPn = m.acceptedPn
  lastCommitted : m'.lastCommitted = m.lastCommitted
  lead : m'.role = .leader → SameLead m m'
  update : m'.role = .peon → m'.state = .updating → m.role = .peon ∧ m.state = .updating
  found : m'.found = m.found

theorem Calm.rfl : Calm m m :=
  ⟨by trivial, by trivial, by trivial, fun _ => .rfl, fun hp hs => ⟨hp, hs⟩, by trivial⟩

/-- The memory with which a winner starts to collect. -/
def elected (i e : ℕ) (q : Finset ℕ) (m : Mon) : Mon :=
  { cancelEvents { m with role := .leader, leader := i, monEpoch := e, quorum := q } with
    state := .recovering, leaseExpire := 0 }

/-- What `i` does at an event: nothing that matters here, or one of the
handlers below, on the cluster once the message is off its link. -/
inductive Move (n lease : ℕ) (s : Cluster) (i : ℕ) : Event → Cluster → Handled → Prop
  | quiet {ev : Event} {s₁ : Cluster} {o : Handled} :
      (s₁ = s ∨ ∃ src, s₁ = s.received src i) → (∀ e ∈ o.effs, e.Quiet) →
      Calm (s.node i).mon o.st → Move n lease s i ev s₁ o
  | alone (e : ℕ) (q : Finset ℕ) : IsQuorum n i q → q.card = 1 →
      Move n lease s i (.win i e q) s (.ret { (s.node i).mon with
        role := .leader, leader := i, monEpoch := e, quorum := q, state := .active })
  | win (e : ℕ) (q : Finset ℕ) : IsQuorum n i q → q.card ≠ 1 →
      Move n lease s i (.win i e q) s (collect n i (s.node i).store 0 (elected i e q (s.node i).mon))
  | propose (v : Blob) : v ≠ [] → (s.node i).mon.role = .leader → (s.node i).mon.state = .active →
      Move n lease s i (.propose i v) s (begin n i v (cancelEvents (s.node i).mon))
  | collect (src now : ℕ) (c : MMonPaxos) (ms : List MMonPaxos) : s.net src i = c :: ms →
      c.op = .collect → c.epoch = (s.node i).mon.monEpoch → (s.node i).mon.role = .peon →
      Move n lease s i (.deliver src i now) (s.received src i)
        (handleCollect (s.node i).store src c (s.node i).mon)
  | last (src now : ℕ) (c : MMonPaxos) (ms : List MMonPaxos) : s.net src i = c :: ms →
      c.op = .last → c.epoch = (s.node i).mon.monEpoch → (s.node i).mon.role = .leader →
      Move n lease s i (.deliver src i now) (s.received src i)
        (handleLast n i lease (s.node i).store src c now (s.node i).mon)
  | begin (src now : ℕ) (c : MMonPaxos) (ms : List MMonPaxos) : s.net src i = c :: ms →
      c.op = .begin → c.epoch = (s.node i).mon.monEpoch → (s.node i).mon.role ≠ .starting →
      Move n lease s i (.deliver src i now) (s.received src i)
        (handleBegin src c (s.node i).mon)
  | accept (src now : ℕ) (c : MMonPaxos) (ms : List MMonPaxos) : s.net src i = c :: ms →
      c.op = .accept → c.epoch = (s.node i).mon.monEpoch → (s.node i).mon.role ≠ .starting →
      Move n lease s i (.deliver src i now) (s.received src i)
        (handleAccept n i lease src c now (s.node i).mon)
  | commit (src now : ℕ) (c : MMonPaxos) (ms : List MMonPaxos) : s.net src i = c :: ms →
      c.op = .commit → c.epoch = (s.node i).mon.monEpoch → (s.node i).mon.role = .peon →
      Move n lease s i (.deliver src i now) (s.received src i)
        (handleCommit c (s.node i).mon)

variable {ev : Event} {o : Handled} {s₁ : Cluster}

theorem Move.same {n lease : ℕ}
    (hm : Move n lease s i ev s₁ o) : s₁.node = s.node ∧ s₁.log = s.log := by
  cases hm with
  | quiet hs _ _ => rcases hs with rfl | ⟨src, rfl⟩ <;> exact ⟨rfl, rfl⟩
  | _ => exact ⟨rfl, rfl⟩

theorem quiet_check (m : Mon) : (∀ e ∈ (check m false : Handled).effs, e.Quiet) ∧
    Calm m (check m false : Handled).st := ⟨by simp, .rfl⟩

theorem quiet_ret (m : Mon) : (∀ e ∈ (ret m : Handled).effs, e.Quiet) ∧
    Calm m (ret m : Handled).st := ⟨by simp [ret], .rfl⟩

theorem quiet_callElection (m : Mon) :
    (∀ e ∈ (callElection n m).effs, e.Quiet) ∧ Calm m (callElection n m).st := by
  unfold callElection
  split_ifs with h
  · exact quiet_ret m
  · exact ⟨by simp [Effect.Quiet], rfl, rfl, rfl, by simp [cancelEvents], by simp [cancelEvents], rfl⟩

theorem quiet_loseElection (e l : ℕ) (m : Mon) :
    (∀ x ∈ (loseElection e l m).effs, x.Quiet) ∧ Calm m (loseElection e l m).st :=
  ⟨by simp [loseElection, peonInit, Effect.Quiet], rfl, rfl, rfl,
    by simp [loseElection, peonInit, cancelEvents], by simp [loseElection, peonInit], rfl⟩

theorem quiet_extendLease (i now : ℕ) (m : Mon) :
    (∀ e ∈ (extendLease n i lease now m).effs, e.Quiet) ∧ SameLead m (extendLease n i lease now m).st ∧
      Calm m (extendLease n i lease now m).st := by
  unfold extendLease
  simp only [check_andThen, decide_eq_true_eq]
  split_ifs with h h'
  · refine ⟨?_, by constructor <;> rfl, rfl, rfl, rfl, fun _ => by constructor <;> rfl,
      fun hp hs => ⟨hp, hs⟩, rfl⟩
    intro e he
    obtain ⟨p, _, rfl⟩ := List.mem_map.mp he
    exact .inl rfl
  · exact ⟨(quiet_check m).1, .rfl, .rfl⟩
  · exact ⟨(quiet_check m).1, .rfl, .rfl⟩

theorem quiet_handleLease (src now : ℕ) (l m) :
    (∀ e ∈ (handleLease src l now m).effs, e.Quiet) ∧ Calm m (handleLease src l now m).st := by
  unfold handleLease
  split_ifs with h
  · exact quiet_ret m
  · have hp : m.role = .peon := by
      by_contra hne
      exact h (.inl hne)
    refine ⟨?_, rfl, rfl, rfl, ?_, by simp, rfl⟩
    · intro e he
      simp only [emit_effs, mem_append, mem_cons, not_mem_nil, or_false] at he
      rcases he with (rfl | rfl) | he
      · exact .inr rfl
      · exact trivial
      · split_ifs at he with hr
        · rw [mem_singleton] at he
          subst he
          exact trivial
        · nomatch he
    · intro hl
      exact absurd (hp.symm.trans hl) (by decide)

theorem quiet_handleLeaseAck (src : ℕ) (m : Mon) :
    (∀ e ∈ (handleLeaseAck src m).effs, e.Quiet) ∧ Calm m (handleLeaseAck src m).st := by
  unfold handleLeaseAck
  dsimp only
  split_ifs
  · exact quiet_ret m
  · exact ⟨by simp [ret], rfl, rfl, rfl, fun _ => by constructor <;> rfl, fun hp hs => ⟨hp, hs⟩, rfl⟩
  · exact ⟨by simp [ret], rfl, rfl, rfl, fun _ => by constructor <;> rfl, fun hp hs => ⟨hp, hs⟩, rfl⟩
  · exact quiet_ret m

/-- A delivered message is ignored, or handled by its handler. -/
theorem move_of_dispatch {src now : ℕ} {msg : MMonPaxos} {ms : List MMonPaxos}
    (hnet : s.net src i = msg :: ms) :
    Move n lease s i (.deliver src i now) (s.received src i)
      (dispatch n i lease (s.node i).store src msg now (s.node i).mon) := by
  have hs1 : s.received src i = s ∨ ∃ src', s.received src i = s.received src' i := .inr ⟨src, rfl⟩
  set m := (s.node i).mon with hm
  unfold dispatch
  by_cases hgt : msg.epoch > m.monEpoch
  · -- a newer election: this monitor is out of it
    have hne : msg.epoch ≠ m.monEpoch := by omega
    obtain ⟨hq, hc⟩ := quiet_callElection (n := n) m
    have heq : ((callElection n m).andThen fun m =>
        if msg.epoch ≠ m.monEpoch then .ret m else paxosDispatch n i lease (s.node i).store src msg now m) =
        callElection n m := by
      unfold callElection
      split_ifs with h1
      · simp [hne]
      · simp only [emit_andThen, cancelEvents]
        rw [if_pos hne]
        simp [ret, emit]
    rw [if_pos hgt, heq]
    exact .quiet hs1 hq hc
  · rw [if_neg hgt, ret_andThen]
    by_cases hep : msg.epoch = m.monEpoch
    swap
    · rw [if_pos hep]
      exact .quiet hs1 (quiet_ret m).1 (quiet_ret m).2
    rw [if_neg (not_not.mpr hep)]
    unfold paxosDispatch
    by_cases hst : m.role = .starting
    · rw [if_pos hst]
      exact .quiet hs1 (quiet_ret m).1 (quiet_ret m).2
    rw [if_neg hst, check_andThen]
    split_ifs with hlead
    swap
    · exact .quiet hs1 (quiet_check m).1 (quiet_check m).2
    cases hop : msg.op with
    | collect =>
      by_cases hp : m.role = .peon
      · exact .collect src now msg ms hnet hop hep hp
      · simp only [handleCollect, hp, decide_false, check_andThen]
        exact .quiet hs1 (quiet_check m).1 (quiet_check m).2
    | last =>
      by_cases hl : m.role = .leader
      · exact .last src now msg ms hnet hop hep hl
      · simp only [handleLast, hl, ne_eq, not_false_eq_true, if_true]
        exact .quiet hs1 (quiet_ret m).1 (quiet_ret m).2
    | begin => exact .begin src now msg ms hnet hop hep hst
    | accept => exact .accept src now msg ms hnet hop hep hst
    | commit =>
      by_cases hp : m.role = .peon
      · exact .commit src now msg ms hnet hop hep hp
      · simp only [handleCommit, hp, decide_false, check_andThen]
        exact .quiet hs1 (quiet_check m).1 (quiet_check m).2
    | lease => exact .quiet hs1 (quiet_handleLease src now msg m).1 (quiet_handleLease src now msg m).2
    | leaseAck => exact .quiet hs1 (quiet_handleLeaseAck src m).1 (quiet_handleLeaseAck src m).2

/-- **What an event can do.** -/
theorem move_of_start
    (h : start n lease s ev = some (i, s₁, o)) : Ready n s i ∧ Move n lease s i ev s₁ o := by
  cases ev with
  | win j e q =>
    obtain ⟨⟨hr, hq⟩, ⟨⟩⟩ := ite_none_right_eq_some.mp h
    refine ⟨hr, ?_⟩
    unfold winElection leaderInit
    by_cases h1 : q.card = 1
    · simp only [h1, if_true]
      exact .alone e q hq h1
    · simp only [h1, if_false]
      exact .win e q hq h1
  | lose j e l =>
    obtain ⟨hr, ⟨⟩⟩ := ite_none_right_eq_some.mp h
    exact ⟨hr, .quiet (.inl rfl) (quiet_loseElection e l _).1 (quiet_loseElection e l _).2⟩
  | deliver a b now =>
    simp only [start] at h
    split at h
    · cases h
    · rename_i msg ms hnet
      obtain ⟨hr, ⟨⟩⟩ := ite_none_right_eq_some.mp h
      exact ⟨hr, move_of_dispatch hnet⟩
  | propose j v =>
    obtain ⟨⟨hr, hv⟩, ⟨⟩⟩ := ite_none_right_eq_some.mp h
    refine ⟨hr, ?_⟩
    unfold proposeNewValue
    rw [check_andThen]
    split_ifs with hla
    · rw [decide_eq_true_eq] at hla
      exact .propose v hv hla.1 hla.2
    · exact .quiet (.inl rfl) (quiet_check _).1 (quiet_check _).2
  | callElection j =>
    obtain ⟨hr, ⟨⟩⟩ := ite_none_right_eq_some.mp h
    exact ⟨hr, .quiet (.inl rfl) (quiet_callElection _).1 (quiet_callElection _).2⟩
  | leaseRenew j now =>
    obtain ⟨hr, ⟨⟩⟩ := ite_none_right_eq_some.mp h
    refine ⟨hr, .quiet (.inl rfl) (quiet_extendLease _ now _).1 ?_⟩
    obtain ⟨_, hsame, hc⟩ := @quiet_extendLease n lease i now { (s.node i).mon with leaseRenewEvent := false }
    refine ⟨hc.lastPn, hc.acceptedPn, hc.lastCommitted, fun _ => ?_, hc.update, hc.found⟩
    exact ⟨hsame.role, hsame.state, hsame.quorum, hsame.numLast, hsame.lastsFrom, hsame.uncommittedV,
      hsame.uncommittedPn, hsame.uncommittedValue, hsame.newValue, hsame.accepted⟩

/-- **What a step can do.** An event is handled, whole or up to a crash; a
monitor restarts; a message is lost. -/
theorem step_cases {s' : Cluster} {a : Act} (h : step n lease s a = some s') :
    (∃ ev i s₁ o es m up, (a = .run ev ∨ ∃ k, a = .cut ev k) ∧ Ready n s i ∧
      Move n lease s i ev s₁ o ∧ es <+: o.effs ∧
      (up = true → es = o.effs ∧ m = o.st ∧ o.ok = true) ∧
      s' = (s₁.performAll i es).become i m up) ∨
    (∃ i, a = .restart i ∧ i < n ∧ (s.node i).up = false ∧ s' = s.restart i) ∨
    (∃ i j k, a = .drop i j k ∧ s' = s.drop i j k) := by
  cases a with
  | run ev =>
    obtain ⟨⟨i, s₁, o⟩, hst, rfl⟩ := map_eq_some_iff.mp h
    obtain ⟨hr, hm⟩ := move_of_start hst
    exact .inl ⟨ev, i, s₁, o, o.effs, o.st, o.ok, .inl rfl, hr, hm, prefix_rfl,
      fun h => ⟨rfl, rfl, h⟩, rfl⟩
  | cut ev k =>
    obtain ⟨⟨i, s₁, o⟩, hst, rfl⟩ := map_eq_some_iff.mp h
    obtain ⟨hr, hm⟩ := move_of_start hst
    exact .inl ⟨ev, i, s₁, o, o.effs.take k, _, false, .inr ⟨k, rfl⟩, hr, hm,
      List.take_prefix k _, by simp, rfl⟩
  | restart i =>
    simp only [step, ite_none_right_eq_some, some.injEq] at h
    exact .inr (.inl ⟨i, rfl, h.1.1, h.1.2, h.2.symm⟩)
  | drop i j k =>
    simp only [step, some.injEq] at h
    exact .inr (.inr ⟨i, j, k, rfl, h.symm⟩)

end Paxos
end Ceph
