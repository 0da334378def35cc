/-
# A simple lock excludes

While a request holds the exclusive lock no request reads, on the authority or
on a replica (`Excludes`), in every run whose steps are `Careful`. A replica
and the authority are at one of a few points of giving up and taking up reading
(`Phase`), each with the messages that are in flight between them; and for each
request that has the lock from afar one token goes round: the ack, the lock on
the replica, and the release (`Tokens.token`).

A step is not careful in two cases. With no replicas the authority does not wait
for its own readers (`simpleLock`). And a request on a replica that is woken by
another one's ack asks a second time; the second ack comes when it may have
given the lock back.
-/
import Ceph.Lib.Run
import Ceph.Mds.SimpleLock
import Mathlib.Data.Finset.Lattice.Lemmas

namespace Ceph
namespace Mds
namespace Simple

open List Option Function Links State

variable {p : Placement} {s s' : State}

/-! ### What is in flight -/

/-- The lock messages in flight. -/
def State.mlocks (s : State) : Links Action := fun i j =>
  (s.net i j).filterMap fun
    | .mlock action => some action
    | .slave _ _ => none

/-- The slave requests in flight. -/
def State.calls (s : State) : Links (Op × ℕ) := fun i j =>
  (s.net i j).filterMap fun
    | .mlock _ => none
    | .slave op req => some (op, req)

@[simp] theorem mlocks_put (n : ℕ) (l : Lock) : (s.put n l).mlocks = s.mlocks := rfl
@[simp] theorem locks_put_self (n : ℕ) (l : Lock) : (s.put n l).locks n = l := update_self ..
@[simp] theorem locks_send (i j : ℕ) (m : Msg) : (s.send i j m).locks = s.locks := rfl

variable {n m : ℕ}

theorem locks_put_ne (l : Lock) (h : m ≠ n) : (s.put n l).locks m = s.locks m := update_of_ne h ..

theorem check_eq {b : Bool} (h : b = true) : s.check b = s := by
  subst h
  simp [check]

variable {n : ℕ}

/-- Nothing is gathered in a stable state: the assertion of `set_state` holds. -/
theorem setState_eq {st : LState} (h : st.isStable = true → (s.locks n).gatherSet = ∅) :
    s.setState n st = s.put n { s.locks n with state := st } := by
  apply check_eq
  cases hst : st.isStable with
  | false => rfl
  | true => simp [h hst]

variable {i j : ℕ}

theorem mlocks_send (a : Action) (a' b' : ℕ) : (s.send i j (.mlock a)).mlocks a' b' =
    if a' = i ∧ b' = j then s.mlocks i j ++ [a] else s.mlocks a' b' := by
  unfold mlocks send post
  split_ifs with h
  · obtain ⟨rfl, rfl⟩ := h
    simp
  · simp [h]

@[simp] theorem calls_send_mlock (a : Action) : (s.send i j (.mlock a)).calls = s.calls := by
  funext a' b'
  simp only [calls, send, post]
  split_ifs <;> simp

@[simp] theorem mlocks_send_slave (op : Op) (req : ℕ) :
    (s.send i j (.slave op req)).mlocks = s.mlocks := by
  funext a' b'
  simp only [mlocks, send, post]
  split_ifs <;> simp

theorem calls_send (op : Op) (req : ℕ) :
    (s.send i j (.slave op req)).calls = s.calls.post i j (op, req) := by
  funext a b
  simp only [calls, send, post]
  split_ifs <;> simp

theorem mlocks_broadcast (i : ℕ) (js : Finset ℕ) (a : Action) (a' b' : ℕ) :
    ({ s with net := s.net.broadcast i js (.mlock a) } : State).mlocks a' b' =
      if a' = i ∧ b' ∈ js then s.mlocks a' b' ++ [a] else s.mlocks a' b' := by
  unfold mlocks broadcast
  split_ifs with h <;> simp [h]

@[simp] theorem calls_broadcast (i : ℕ) (js : Finset ℕ) (a : Action) :
    ({ s with net := s.net.broadcast i js (.mlock a) } : State).calls = s.calls := by
  funext a' b'
  simp only [calls, broadcast]
  split_ifs <;> simp

/-- The state with the oldest message from `i` to `j` taken. -/
def State.taken (s : State) (i j : ℕ) : State := { s with net := s.net.take i j 0 }

@[simp] theorem locks_taken (i j : ℕ) : (s.taken i j).locks = s.locks := rfl

section taken

variable {i j : ℕ} {ms : List Msg}

theorem mlocks_taken_ne {a b : ℕ} (h : ¬ (a = i ∧ b = j)) : (s.taken i j).mlocks a b = s.mlocks a b := by
  show ((s.net.take i j 0) a b).filterMap _ = _
  rw [take_ne s.net h]
  rfl

theorem calls_taken_ne {a b : ℕ} (h : ¬ (a = i ∧ b = j)) : (s.taken i j).calls a b = s.calls a b := by
  show ((s.net.take i j 0) a b).filterMap _ = _
  rw [take_ne s.net h]
  rfl

variable {a : Action}

theorem mlocks_head (h : s.net i j = .mlock a :: ms) : s.mlocks i j = a :: (s.taken i j).mlocks i j := by
  show (s.net i j).filterMap _ = a :: ((s.net.take i j 0) i j).filterMap _
  rw [take_head h, h]
  rfl

theorem calls_mlock (h : s.net i j = .mlock a :: ms) : (s.taken i j).calls = s.calls := by
  funext a' b'
  by_cases hab : a' = i ∧ b' = j
  · obtain ⟨rfl, rfl⟩ := hab
    show ((s.net.take a' b' 0) a' b').filterMap _ = (s.net a' b').filterMap _
    rw [take_head h, h]
    rfl
  · exact calls_taken_ne hab

theorem calls_head {op : Op} {req : ℕ} (h : s.net i j = .slave op req :: ms) :
    (∃ cs, s.calls i j = (op, req) :: cs) ∧ (s.taken i j).calls = s.calls.take i j 0 := by
  have hc : s.calls i j = (op, req) :: ms.filterMap fun
      | .mlock _ => none
      | .slave op req => some (op, req) := by
    unfold calls
    rw [h]
    rfl
  refine ⟨⟨_, hc⟩, ?_⟩
  funext a b
  by_cases hab : a = i ∧ b = j
  · obtain ⟨rfl, rfl⟩ := hab
    rw [take_head hc]
    show ((s.net.take a b 0) a b).filterMap _ = _
    rw [take_head h]
  · rw [take_ne s.calls hab]
    exact calls_taken_ne hab

theorem mlocks_slave {op : Op} {req : ℕ} (h : s.net i j = .slave op req :: ms) : (s.taken i j).mlocks = s.mlocks := by
  funext a' b'
  by_cases hab : a' = i ∧ b' = j
  · obtain ⟨rfl, rfl⟩ := hab
    show ((s.net.take a' b' 0) a' b').filterMap _ = (s.net a' b').filterMap _
    rw [take_head h, h]
    rfl
  · exact mlocks_taken_ne hab

end taken

/-! ### Giving up and taking up reading -/

/-- Where a replica is with the authority: the authority's state, whether it gathers
the replica's ack, the replica's state, and the messages to it and from it. -/
inductive Phase : LState → Bool → LState → List Action → List Action → Prop
  | synced : Phase .sync false .sync [] []
  | syncing : Phase .sync false .lock [.sync] []
  | asked : Phase .glockr true .sync [.lock] []
  | askedBehind : Phase .glockr true .lock [.sync, .lock] []
  | draining : Phase .glockr true .glockr [] []
  | answered : Phase .glockr true .lock [] [.lockack]
  | gathered : Phase .glockr false .lock [] []
  | locked : Phase .lock false .lock [] []

section Phase

variable {a b : LState} {g : Bool} {down up : List Action}

theorem Phase.of_lock (h : Phase .lock g b down up) : g = false ∧ b = .lock ∧ down = [] ∧ up = [] := by
  cases h
  exact ⟨rfl, rfl, rfl, rfl⟩

theorem Phase.of_sync (h : Phase .sync g b down up) :
    g = false ∧ up = [] ∧ (b = .sync ∧ down = [] ∨ b = .lock ∧ down = [.sync]) := by
  cases h with
  | synced => exact ⟨rfl, rfl, .inl ⟨rfl, rfl⟩⟩
  | syncing => exact ⟨rfl, rfl, .inr ⟨rfl, rfl⟩⟩

theorem Phase.of_gathered (h : Phase .glockr false b down up) : b = .lock ∧ down = [] ∧ up = [] := by
  cases h
  exact ⟨rfl, rfl, rfl⟩

theorem Phase.of_draining (h : Phase a g .glockr down up) : a = .glockr ∧ g = true ∧ down = [] ∧ up = [] := by
  cases h
  exact ⟨rfl, rfl, rfl, rfl⟩

theorem Phase.of_gathering (h : Phase a true b down up) : a = .glockr := by
  cases h <;> rfl

theorem Phase.sync_head (h : Phase a g b (.sync :: down) up) :
    b = .lock ∧ up = [] ∧ (a = .sync ∧ g = false ∧ down = [] ∨ a = .glockr ∧ g = true ∧ down = [.lock]) := by
  cases h with
  | syncing => exact ⟨rfl, rfl, .inl ⟨rfl, rfl, rfl⟩⟩
  | askedBehind => exact ⟨rfl, rfl, .inr ⟨rfl, rfl, rfl⟩⟩

theorem Phase.lock_head (h : Phase a g b (.lock :: down) up) :
    a = .glockr ∧ g = true ∧ b = .sync ∧ down = [] ∧ up = [] := by
  cases h
  exact ⟨rfl, rfl, rfl, rfl, rfl⟩

theorem Phase.not_lockack (h : Phase a g b (.lockack :: down) up) : False := by
  cases h

theorem Phase.up_head {m : Action} (h : Phase a g b down (m :: up)) :
    m = .lockack ∧ a = .glockr ∧ g = true ∧ b = .lock ∧ down = [] ∧ up = [] := by
  cases h
  exact ⟨rfl, rfl, rfl, rfl, rfl, rfl⟩

theorem Phase.settled (h : Phase a g b [] []) : (a.isStable = true → b = a) ∧ (g = true ↔ b = .glockr) := by
  cases h <;> simp [LState.isStable]

end Phase

/-- Where `r` is with the authority. -/
def PhaseOf (p : Placement) (s : State) (r : ℕ) : Prop :=
  Phase (s.locks p.auth).state (decide (r ∈ (s.locks p.auth).gatherSet)) (s.locks r).state
    (s.mlocks p.auth r) (s.mlocks r p.auth)

/-- The part of the invariant that the readers depend on. -/
structure Gathers (p : Placement) (s : State) : Prop where
  phase : ∀ r ∈ p.replicas, PhaseOf p s r
  gathered : (s.locks p.auth).gatherSet ⊆ p.replicas
  others : ∀ n, n ≠ p.auth → (s.locks n).gatherSet = ∅
  quiet : ∀ n, (s.locks n).state = .lock → (s.locks n).numRdlock = 0

namespace Gathers

theorem gather_eq (h : Gathers p s) (hst : (s.locks p.auth).state.isStable = true) :
    (s.locks p.auth).gatherSet = ∅ := by
  apply Finset.eq_empty_of_forall_notMem
  intro r hr
  have hphase := h.phase r (h.gathered hr)
  unfold PhaseOf at hphase
  rw [decide_eq_true hr] at hphase
  rw [hphase.of_gathering] at hst
  cases hst

theorem congr (h : Gathers p s) (hst : ∀ n, (s'.locks n).state = (s.locks n).state)
    (hg : ∀ n, (s'.locks n).gatherSet = (s.locks n).gatherSet) (hm : s'.mlocks = s.mlocks)
    (hq : ∀ n, (s'.locks n).state = .lock → (s'.locks n).numRdlock = 0) : Gathers p s' where
  phase := by
    intro r hr
    unfold PhaseOf
    rw [hst, hst, hg, hm]
    exact h.phase r hr
  gathered := by
    rw [hg]
    exact h.gathered
  others := by
    intro n hn
    rw [hg]
    exact h.others n hn
  quiet := hq

/-- A change on one replica and the links to it. -/
theorem replica {r : ℕ} (h : Gathers p s) (hr : r ∈ p.replicas) (hl : ∀ n, n ≠ r → s'.locks n = s.locks n)
    (hm : ∀ n, n ≠ r → s'.mlocks p.auth n = s.mlocks p.auth n ∧ s'.mlocks n p.auth = s.mlocks n p.auth)
    (hg : (s'.locks r).gatherSet = ∅) (hq : (s'.locks r).state = .lock → (s'.locks r).numRdlock = 0)
    (hp : PhaseOf p s' r) : Gathers p s' where
  phase := by
    intro n hn
    by_cases hnr : n = r
    · rw [hnr]
      exact hp
    · unfold PhaseOf
      rw [hl n hnr, hl p.auth (p.ne_auth hr).symm, (hm n hnr).1, (hm n hnr).2]
      exact h.phase n hn
  gathered := by
    rw [hl p.auth (p.ne_auth hr).symm]
    exact h.gathered
  others := by
    intro n hn
    by_cases hnr : n = r
    · rw [hnr]
      exact hg
    · rw [hl n hnr]
      exact h.others n hn
  quiet := by
    intro n hst
    by_cases hnr : n = r
    · rw [hnr] at hst ⊢
      exact hq hst
    · rw [hl n hnr] at hst ⊢
      exact h.quiet n hst

theorem authority (h : Gathers p s) (hl : ∀ n, n ≠ p.auth → s'.locks n = s.locks n)
    (hg : (s'.locks p.auth).gatherSet ⊆ p.replicas)
    (hq : (s'.locks p.auth).state = .lock → (s'.locks p.auth).numRdlock = 0)
    (hp : ∀ r ∈ p.replicas, PhaseOf p s' r) : Gathers p s' where
  phase := hp
  gathered := hg
  others := by
    intro n hn
    rw [hl n hn]
    exact h.others n hn
  quiet := by
    intro n hst
    by_cases hna : n = p.auth
    · rw [hna] at hst ⊢
      exact hq hst
    · rw [hl n hna] at hst ⊢
      exact h.quiet n hst

end Gathers

/-! ### The changes of state, without their assertions -/

/-- A message to each replica. -/
def State.tell (s : State) (p : Placement) (a : Action) : State :=
  { s with net := s.net.broadcast p.auth p.replicas (.mlock a) }

theorem tell_eq (a : Action) :
    (if p.replicas.Nonempty then { s with net := s.net.broadcast p.auth p.replicas (.mlock a) } else s) = s.tell p a := by
  split_ifs with h
  · rfl
  · rw [Finset.not_nonempty_iff_eq_empty] at h
    rw [State.tell, h, broadcast_empty]

@[simp] theorem locks_tell (a : Action) : (s.tell p a).locks = s.locks := rfl
@[simp] theorem calls_tell (a : Action) : (s.tell p a).calls = s.calls := calls_broadcast ..

variable {r : ℕ}

theorem mlocks_tell (hr : r ∈ p.replicas) (a : Action) :
    (s.tell p a).mlocks p.auth r = s.mlocks p.auth r ++ [a] ∧ (s.tell p a).mlocks r p.auth = s.mlocks r p.auth := by
  constructor
  · rw [State.tell, mlocks_broadcast, if_pos ⟨rfl, hr⟩]
  · rw [State.tell, mlocks_broadcast, if_neg fun h => p.ne_auth hr h.1]

theorem simpleSync_eq (hst : (s.locks p.auth).state = .lock) (hg : (s.locks p.auth).gatherSet = ∅) :
    simpleSync p s = (s.tell p .sync).put p.auth { s.locks p.auth with state := .sync } := by
  have h1 : s.check (s.locks p.auth).state.isStable = s := check_eq (by rw [hst]; rfl)
  have h2 : s.check ((s.locks p.auth).state = .lock) = s := check_eq (by simp [hst])
  simp only [simpleSync, h1, h2]
  rw [if_neg (by rw [hst]; nofun), tell_eq]
  exact setState_eq fun _ => hg

theorem simpleLock_eq (hst : (s.locks p.auth).state = .sync) (hg : (s.locks p.auth).gatherSet = ∅) :
    simpleLock p s = if p.replicas.Nonempty then
        (s.tell p .lock).put p.auth { s.locks p.auth with state := .glockr, gatherSet := p.replicas }
      else s.put p.auth { s.locks p.auth with state := .lock } := by
  have h1 : s.check (s.locks p.auth).state.isStable = s := check_eq (by rw [hst]; rfl)
  have h2 : s.check ((s.locks p.auth).state = .sync) = s := check_eq (by simp [hst])
  simp only [simpleLock, h1, h2]
  rw [if_neg (by rw [hst]; nofun)]
  split_ifs with hne
  · rw [setState_eq (by nofun)]
    simp [put, State.tell, hg, Finset.empty_union]
  · exact setState_eq fun _ => hg

/-- `simple_eval_gather` on the authority. -/
theorem simpleEvalGather_auth (hst : (s.locks p.auth).state = .glockr) (hg : (s.locks p.auth).gatherSet = ∅)
    (hr : (s.locks p.auth).numRdlock = 0) :
    simpleEvalGather p s p.auth = s.put p.auth { s.locks p.auth with state := .lock, waitWr := false } := by
  have hset : s.setState p.auth .lock = s.put p.auth { s.locks p.auth with state := .lock } := setState_eq fun _ => hg
  rw [simpleEvalGather, if_pos ⟨hst, hg, hr⟩, if_pos rfl]
  simp [hset, put]

/-- `simple_eval_gather` on a replica. -/
theorem simpleEvalGather_replica (hra : r ≠ p.auth) (hst : (s.locks r).state = .glockr)
    (hg : (s.locks r).gatherSet = ∅) (hr : (s.locks r).numRdlock = 0) :
    simpleEvalGather p s r =
      (s.send r p.auth (.mlock .lockack)).put r { s.locks r with state := .lock, waitWr := false } := by
  have hset : (s.send r p.auth (.mlock .lockack)).setState r .lock =
      (s.send r p.auth (.mlock .lockack)).put r { s.locks r with state := .lock } := setState_eq fun _ => hg
  rw [simpleEvalGather, if_pos ⟨hst, hg, hr⟩, if_neg hra]
  simp [hset, put]

theorem handle_sync (hst : (s.locks n).state = .lock) (hg : (s.locks n).gatherSet = ∅) :
    handleSimpleLock p s i n .sync = s.put n { s.locks n with state := .sync } := by
  have hcheck : s.check ((s.locks n).state = .lock) = s := check_eq (by simp [hst])
  unfold handleSimpleLock
  rw [hcheck]
  exact setState_eq fun _ => hg

theorem handle_lock_reading (hst : (s.locks n).state = .sync) (hread : 0 < (s.locks n).numRdlock) :
    handleSimpleLock p s i n .lock = s.put n { s.locks n with state := .glockr } := by
  have hcheck : s.check ((s.locks n).state = .sync) = s := check_eq (by simp [hst])
  simp only [handleSimpleLock, hcheck]
  rw [if_pos hread]
  exact setState_eq nofun

theorem handle_lock_idle (hst : (s.locks n).state = .sync) (hg : (s.locks n).gatherSet = ∅)
    (hread : ¬ 0 < (s.locks n).numRdlock) :
    handleSimpleLock p s i n .lock = (s.put n { s.locks n with state := .lock }).send n i (.mlock .lockack) := by
  have hcheck : s.check ((s.locks n).state = .sync) = s := check_eq (by simp [hst])
  simp only [handleSimpleLock, hcheck]
  rw [if_neg hread, setState_eq fun _ => hg]

theorem handle_lockack (hst : (s.locks n).state = .glockr) (hi : i ∈ (s.locks n).gatherSet) :
    handleSimpleLock p s i n .lockack = if (s.locks n).gatherSet.erase i = ∅ then
        simpleEvalGather p (s.put n { s.locks n with gatherSet := (s.locks n).gatherSet.erase i }) n
      else s.put n { s.locks n with gatherSet := (s.locks n).gatherSet.erase i } := by
  have h1 : s.check ((s.locks n).state = .glockr) = s := check_eq (by simp [hst])
  have h2 : s.check (decide (i ∈ (s.locks n).gatherSet)) = s := check_eq (by simp [hi])
  simp only [handleSimpleLock, h1, h2, locks_put_self]

/-! ### What the readers leave alone -/

/-- What the exclusive lock depends on: who has it on each MDS, which requests wait
at the authority, and the slave requests in flight. -/
structure View where
  xlockBy : ℕ → Option (ℕ × ℕ)
  slaves : Finset (ℕ × ℕ)
  calls : Links (Op × ℕ)

def State.view (s : State) : View := ⟨fun n => (s.locks n).xlockBy, s.slaves, s.calls⟩

theorem view_put (n : ℕ) (l : Lock) :
    (s.put n l).view = { s.view with xlockBy := update s.view.xlockBy n l.xlockBy } := by
  have hx : (fun m => ((s.put n l).locks m).xlockBy) = update s.view.xlockBy n l.xlockBy := by
    funext m
    by_cases hm : m = n
    · subst hm
      simp
    · simp [locks_put_ne _ hm, hm, State.view]
  unfold State.view
  rw [hx]
  rfl

theorem view_send (op : Op) (req : ℕ) :
    (s.send i j (.slave op req)).view = { s.view with calls := s.view.calls.post i j (op, req) } := by
  unfold State.view
  rw [calls_send]
  rfl

/-- No other MDS is touched, and no message goes anywhere else. -/
structure Within (p : Placement) (s s' : State) : Prop where
  locks : ∀ n, ¬ p.On n → s'.locks n = s.locks n
  net : ∀ i j, s'.net i j ≠ [] → s.net i j ≠ [] ∨ p.Link i j

namespace Within

theorem refl (s : State) : Within p s s := ⟨fun _ _ => rfl, fun _ _ => .inl⟩

theorem trans {t : State} (h : Within p s t) (h' : Within p t s') : Within p s s' where
  locks := fun n hn => (h'.locks n hn).trans (h.locks n hn)
  net := fun i j hne => (h'.net i j hne).elim (h.net i j) .inr

theorem put {n : ℕ} {l : Lock} (hn : p.On n) : Within p s (s.put n l) where
  locks := by
    intro m hm
    apply locks_put_ne
    rintro rfl
    exact hm hn
  net := fun _ _ => .inl

theorem send {i j : ℕ} (m : Msg) (hij : p.Link i j) : Within p s (s.send i j m) where
  locks := fun _ _ => rfl
  net := by
    intro a b hne
    by_cases hab : a = i ∧ b = j
    · obtain ⟨rfl, rfl⟩ := hab
      exact .inr hij
    · refine .inl ?_
      rw [← post_ne s.net m hab]
      exact hne

theorem tell (a : Action) : Within p s (s.tell p a) where
  locks := fun _ _ => rfl
  net := by
    intro i j hne
    by_cases hij : i = p.auth ∧ j ∈ p.replicas
    · exact .inr (.inl hij)
    · refine .inl ?_
      have hsame : (s.tell p a).net i j = s.net i j := by
        show (if i = p.auth ∧ j ∈ p.replicas then _ else _) = _
        rw [if_neg hij]
      rw [← hsame]
      exact hne

theorem taken (i j : ℕ) : Within p s (s.taken i j) where
  locks := fun _ _ => rfl
  net := by
    intro a b hne
    obtain ⟨m, hm⟩ := exists_mem_of_ne_nil _ hne
    exact .inl (ne_nil_of_mem (mem_take hm))

theorem slaves {t : Finset (ℕ × ℕ)} : Within p s { s with slaves := t } := ⟨fun _ _ => rfl, fun _ _ => .inl⟩

end Within

/-- Nothing changed that the exclusive lock depends on, and no assertion failed. -/
structure Keeps (p : Placement) (s s' : State) : Prop extends Within p s s' where
  view : s'.view = s.view
  failed : s'.failed = s.failed

namespace Keeps

theorem refl (s : State) : Keeps p s s := ⟨.refl s, rfl, rfl⟩

theorem trans {t : State} (h : Keeps p s t) (h' : Keeps p t s') : Keeps p s s' :=
  ⟨h.toWithin.trans h'.toWithin, h'.view.trans h.view, h'.failed.trans h.failed⟩

theorem put {n : ℕ} {l : Lock} (hn : p.On n) (hl : l.xlockBy = (s.locks n).xlockBy) : Keeps p s (s.put n l) := by
  refine ⟨Within.put hn, ?_, rfl⟩
  rw [view_put, hl]
  simp [State.view]

theorem send {i j : ℕ} (a : Action) (hij : p.Link i j) : Keeps p s (s.send i j (.mlock a)) := by
  refine ⟨Within.send _ hij, ?_, rfl⟩
  unfold State.view
  rw [calls_send_mlock]
  rfl

theorem tell (a : Action) : Keeps p s (s.tell p a) := by
  refine ⟨Within.tell a, ?_, rfl⟩
  unfold State.view
  rw [calls_tell]
  rfl

theorem taken {i j : ℕ} {a : Action} {ms : List Msg} (h : s.net i j = .mlock a :: ms) : Keeps p s (s.taken i j) := by
  refine ⟨Within.taken i j, ?_, rfl⟩
  unfold State.view
  rw [calls_mlock h]
  rfl

theorem xlockBy (h : Keeps p s s') (n : ℕ) : (s'.locks n).xlockBy = (s.locks n).xlockBy :=
  congrFun (congrArg View.xlockBy h.view) n

end Keeps

/-! ### The changes of state keep it -/

namespace Gathers

section

variable (h : Gathers p s)
include h

/-- **The authority takes up reading again.** -/
theorem simpleSync (hst : (s.locks p.auth).state = .lock) :
    Gathers p (simpleSync p s) ∧ Keeps p s (simpleSync p s) := by
  have hg := h.gather_eq (by rw [hst]; rfl)
  rw [simpleSync_eq hst hg]
  refine ⟨h.authority (fun n hn => locks_put_ne _ hn) (by simp [hg]) (by simp) fun r hr => ?_,
    (Keeps.tell .sync).trans (Keeps.put p.on_auth rfl)⟩
  have hphase := h.phase r hr
  unfold PhaseOf at hphase ⊢
  rw [hst] at hphase
  obtain ⟨-, hb, hdown, hup⟩ := hphase.of_lock
  obtain ⟨htell, hback⟩ := mlocks_tell (s := s) hr .sync
  rw [locks_put_self, locks_put_ne _ (p.ne_auth hr), locks_tell, mlocks_put, htell, hback, hb, hdown, hup]
  simp only [hg, Finset.notMem_empty, decide_false]
  exact .syncing

/-- **The authority gives up reading**, with replicas or with no readers of its own. -/
theorem simpleLock (hst : (s.locks p.auth).state = .sync)
    (hread : p.replicas = ∅ → (s.locks p.auth).numRdlock = 0) :
    Gathers p (simpleLock p s) ∧ Keeps p s (simpleLock p s) := by
  have hg := h.gather_eq (by rw [hst]; rfl)
  rw [simpleLock_eq hst hg]
  split_ifs with hne
  · refine ⟨h.authority (fun n hn => locks_put_ne _ hn) (by simp) (by simp) fun r hr => ?_,
      (Keeps.tell .lock).trans (Keeps.put p.on_auth rfl)⟩
    have hphase := h.phase r hr
    unfold PhaseOf at hphase ⊢
    rw [hst] at hphase
    obtain ⟨-, hup, hdown⟩ := hphase.of_sync
    obtain ⟨htell, hback⟩ := mlocks_tell (s := s) hr .lock
    rw [locks_put_self, locks_put_ne _ (p.ne_auth hr), locks_tell, mlocks_put, htell, hback, hup]
    simp only [hr, decide_true]
    obtain ⟨hb, hdown⟩ | ⟨hb, hdown⟩ := hdown
    · rw [hb, hdown]
      exact .asked
    · rw [hb, hdown]
      exact .askedBehind
  · rw [Finset.not_nonempty_iff_eq_empty] at hne
    refine ⟨h.authority (fun n hn => locks_put_ne _ hn) (by simp [hg]) (fun _ => ?_) fun r hr => ?_,
      Keeps.put p.on_auth rfl⟩
    · rw [locks_put_self]
      exact hread hne
    · rw [hne] at hr
      exact absurd hr (Finset.notMem_empty r)

/-- **A gather ends.** -/
theorem simpleEvalGather {n : ℕ} (hn : p.On n) :
    Gathers p (simpleEvalGather p s n) ∧ Keeps p s (simpleEvalGather p s n) := by
  by_cases hdone : (s.locks n).state = .glockr ∧ (s.locks n).gatherSet = ∅ ∧ (s.locks n).numRdlock = 0
  · obtain ⟨hst, hg, hread⟩ := hdone
    obtain rfl | hr := hn
    · rw [simpleEvalGather_auth hst hg hread]
      refine ⟨h.authority (fun n hn => locks_put_ne _ hn) (by simp [hg]) (by simp [hread]) fun r hr => ?_,
        Keeps.put p.on_auth rfl⟩
      have hphase := h.phase r hr
      unfold PhaseOf at hphase ⊢
      rw [hst, hg] at hphase
      obtain ⟨hb, hdown, hup⟩ := hphase.of_gathered
      rw [locks_put_self, locks_put_ne _ (p.ne_auth hr), mlocks_put, hb, hdown, hup]
      simp only [hg, Finset.notMem_empty, decide_false]
      exact .locked
    · have hra := p.ne_auth hr
      rw [simpleEvalGather_replica hra hst hg hread]
      have hup : ∀ a b, ¬ (a = n ∧ b = p.auth) → ((s.send n p.auth (.mlock .lockack)).put n
          { s.locks n with state := .lock, waitWr := false }).mlocks a b = s.mlocks a b := by
        intro a b hab
        rw [mlocks_put, mlocks_send, if_neg hab]
      refine ⟨h.replica hr (fun m hm => locks_put_ne _ hm)
        (fun m hm => ⟨hup _ _ fun hab => hra hab.1.symm, hup _ _ fun hab => hm hab.1⟩) (by simp [hg]) (by simp [hread]) ?_,
        (Keeps.send .lockack (.inr ⟨hr, rfl⟩)).trans (Keeps.put (.inr hr) rfl)⟩
      have hphase := h.phase n hr
      unfold PhaseOf at hphase ⊢
      rw [hst] at hphase
      obtain ⟨ha, hgather, hdown, hback⟩ := hphase.of_draining
      rw [hup _ _ fun hab => hra hab.1.symm, locks_put_self, locks_put_ne _ hra.symm, locks_send, mlocks_put,
        mlocks_send, if_pos ⟨rfl, rfl⟩, ha, hgather, hdown, hback]
      exact .answered
  · rw [Simple.simpleEvalGather, if_neg hdone]
    exact ⟨h, .refl s⟩

theorem put {l : Lock} (hst : l.state = (s.locks n).state)
    (hg : l.gatherSet = (s.locks n).gatherSet) (hq : l.state = .lock → l.numRdlock = 0) : Gathers p (s.put n l) := by
  have hl : ∀ m, ((s.put n l).locks m).state = (s.locks m).state ∧
      ((s.put n l).locks m).gatherSet = (s.locks m).gatherSet := by
    intro m
    by_cases hm : m = n
    · subst hm
      simp [hst, hg]
    · simp [locks_put_ne _ hm]
  refine h.congr (fun m => (hl m).1) (fun m => (hl m).2) rfl fun m hlock => ?_
  by_cases hm : m = n
  · subst hm
    rw [locks_put_self] at hlock ⊢
    exact hq hlock
  · rw [locks_put_ne _ hm] at hlock ⊢
    exact h.quiet m hlock

theorem readers {n : ℕ} (k : ℕ) (hk : (s.locks n).state = .lock → k = 0) :
    Gathers p (s.put n { s.locks n with numRdlock := k }) := h.put rfl rfl hk

theorem simpleRdlockStart {n : ℕ} (hn : p.On n) :
    Gathers p (simpleRdlockStart s n) ∧ Keeps p s (simpleRdlockStart s n) := by
  unfold Simple.simpleRdlockStart
  split_ifs with hc
  · refine ⟨h.readers _ fun hlock => ?_, Keeps.put hn rfl⟩
    simp [Lock.canRdlock, hlock] at hc
  · exact ⟨h, .refl s⟩

theorem simpleRdlockFinish {n : ℕ} (hn : p.On n) (hread : 0 < (s.locks n).numRdlock) :
    Gathers p (simpleRdlockFinish p s n) ∧ Keeps p s (simpleRdlockFinish p s n) := by
  have hkeeps : Keeps p s (s.put n { s.locks n with numRdlock := (s.locks n).numRdlock - 1 }) := Keeps.put hn rfl
  have hfree := h.readers ((s.locks n).numRdlock - 1) fun hlock => by rw [h.quiet n hlock]
  have hcheck : s.check (decide (0 < (s.locks n).numRdlock)) = s := check_eq (by simp [hread])
  unfold Simple.simpleRdlockFinish
  simp only [hcheck]
  split_ifs
  · exact (hfree.simpleEvalGather hn).imp_right hkeeps.trans
  · exact ⟨hfree, hkeeps⟩

end

variable {a : Action} {ms : List Msg}

/-- A message to a replica handled there. -/
theorem toReplica {r : ℕ} (h : Gathers p s) (hr : r ∈ p.replicas)
    (hnet : s.net p.auth r = .mlock a :: ms) : Gathers p (handleSimpleLock p (s.taken p.auth r) p.auth r a) ∧
      Keeps p s (handleSimpleLock p (s.taken p.auth r) p.auth r a) := by
  have hra := p.ne_auth hr
  have hg := h.others r hra
  have hphase := h.phase r hr
  unfold PhaseOf at hphase
  rw [mlocks_head hnet] at hphase
  have hother : ∀ n, n ≠ r → (s.taken p.auth r).mlocks p.auth n = s.mlocks p.auth n ∧
      (s.taken p.auth r).mlocks n p.auth = s.mlocks n p.auth := fun n hn =>
    ⟨mlocks_taken_ne fun hab => hn hab.2, mlocks_taken_ne fun hab => hra hab.2.symm⟩
  have hback : (s.taken p.auth r).mlocks r p.auth = s.mlocks r p.auth := mlocks_taken_ne fun hab => hra hab.1
  cases a with
  | sync =>
    obtain ⟨hb, hup, ha⟩ := hphase.sync_head
    rw [handle_sync (s := s.taken p.auth r) hb hg]
    refine ⟨h.replica hr (fun n hn => locks_put_ne _ hn) hother (by simp [hg]) (by simp) ?_,
      (Keeps.taken hnet).trans (Keeps.put (.inr hr) rfl)⟩
    unfold PhaseOf
    rw [locks_put_self, locks_put_ne _ hra.symm, mlocks_put, hback, hup]
    obtain ⟨ha, hgather, hdown⟩ | ⟨ha, hgather, hdown⟩ := ha
    · rw [locks_taken, ha, hgather, hdown]
      exact .synced
    · rw [locks_taken, ha, hgather, hdown]
      exact .asked
  | lock =>
    obtain ⟨ha, hgather, hb, hdown, hup⟩ := hphase.lock_head
    by_cases hread : 0 < (s.locks r).numRdlock
    · rw [handle_lock_reading (s := s.taken p.auth r) hb hread]
      refine ⟨h.replica hr (fun n hn => locks_put_ne _ hn) hother (by simp [hg]) (by simp) ?_,
        (Keeps.taken hnet).trans (Keeps.put (.inr hr) rfl)⟩
      unfold PhaseOf
      rw [locks_put_self, locks_put_ne _ hra.symm, mlocks_put, hback, hup, locks_taken, ha, hgather, hdown]
      exact .draining
    · rw [handle_lock_idle (s := s.taken p.auth r) hb hg hread]
      refine ⟨h.replica hr (fun n hn => locks_put_ne _ hn) (fun n hn => ?_) (by simp [hg]) (by simpa using hread) ?_,
        (Keeps.taken hnet).trans (Keeps.trans (Keeps.put (.inr hr) (by rfl)) (Keeps.send .lockack (.inr ⟨hr, rfl⟩)))⟩
      · rw [mlocks_send, mlocks_send, if_neg fun hab => hra hab.1.symm, if_neg fun hab => hn hab.1]
        exact hother n hn
      · unfold PhaseOf
        rw [locks_send, locks_put_self, locks_put_ne _ hra.symm, mlocks_send, mlocks_send,
          if_neg fun hab => hra hab.1.symm, if_pos ⟨rfl, rfl⟩, mlocks_put, hback, hup, locks_taken, ha, hgather, hdown]
        exact .answered
  | lockack => exact hphase.not_lockack.elim

/-- An ack handled by the authority. -/
theorem toAuth {r : ℕ} (h : Gathers p s) (hr : r ∈ p.replicas)
    (hnet : s.net r p.auth = .mlock a :: ms) : Gathers p (handleSimpleLock p (s.taken r p.auth) r p.auth a) ∧
      Keeps p s (handleSimpleLock p (s.taken r p.auth) r p.auth a) := by
  have hphase := h.phase r hr
  unfold PhaseOf at hphase
  rw [mlocks_head hnet] at hphase
  obtain ⟨rfl, ha, hgather, hb, hdown, hup⟩ := hphase.up_head
  have herase : Gathers p ((s.taken r p.auth).put p.auth
      { s.locks p.auth with gatherSet := (s.locks p.auth).gatherSet.erase r }) := by
    refine h.authority (fun n hn => locks_put_ne _ hn) ?_ ?_ fun n hn => ?_
    · rw [locks_put_self]
      exact (Finset.erase_subset _ _).trans h.gathered
    · rw [locks_put_self]
      intro hlock
      rw [show (s.locks p.auth).state = .lock from hlock] at ha
      cases ha
    · unfold PhaseOf
      rw [locks_put_self, locks_put_ne _ (p.ne_auth hn), mlocks_put, locks_taken,
        mlocks_taken_ne fun hab => p.ne_auth hr hab.1.symm]
      by_cases hnr : n = r
      · subst hnr
        rw [hup, hdown, hb]
        simp only [ha, Finset.notMem_erase, decide_false]
        exact .gathered
      · rw [mlocks_taken_ne fun hab => hnr hab.1]
        have hmem : decide (n ∈ (s.locks p.auth).gatherSet.erase r) = decide (n ∈ (s.locks p.auth).gatherSet) := by
          simp [hnr]
        simp only [hmem]
        exact h.phase n hn
  have hkeeps : Keeps p s ((s.taken r p.auth).put p.auth
      { s.locks p.auth with gatherSet := (s.locks p.auth).gatherSet.erase r }) :=
    (Keeps.taken hnet).trans (Keeps.put p.on_auth rfl)
  rw [handle_lockack (s := s.taken r p.auth) ha (of_decide_eq_true hgather)]
  split_ifs
  · exact (herase.simpleEvalGather (.inl rfl)).imp_right hkeeps.trans
  · exact ⟨herase, hkeeps⟩

end Gathers

/-! ### Who has the lock -/

variable {v : View}

/-- The requests that messages of one kind are about. -/
def about (op : Op) (calls : List (Op × ℕ)) : List ℕ := (calls.filter fun c => c.1 = op).map Prod.snd

/-- The acks on the way to `r`, the request there that has the lock, and the
releases on the way back. -/
def tokens (p : Placement) (v : View) (r : ℕ) : List ℕ :=
  about .xlockack (v.calls p.auth r) ++ ((v.xlockBy r).map Prod.snd).toList ++ about .unxlock (v.calls r p.auth)

/-- The request of `r` that has the lock, for the authority. -/
def granted (p : Placement) (v : View) (r : ℕ) : List ℕ :=
  match v.xlockBy p.auth with
  | none => []
  | some q => if q.1 = r then [q.2] else []

/-- The part of the invariant that speaks of the exclusive lock. -/
structure Tokens (p : Placement) (v : View) : Prop where
  token : ∀ r ∈ p.replicas, tokens p v r = granted p v r
  own : ∀ r ∈ p.replicas, ∀ q, v.xlockBy r = some q → q.1 = r
  down : ∀ r ∈ p.replicas, ∀ c ∈ v.calls p.auth r, c.1 = Op.xlockack
  up : ∀ r ∈ p.replicas, ∀ c ∈ v.calls r p.auth, c.1 ≠ Op.xlockack

/-- The part that speaks of the requests for it: none is made twice. -/
structure Asks (p : Placement) (v : View) : Prop where
  again : ∀ r ∈ p.replicas, ∀ req, v.xlockBy p.auth = some (r, req) → ∀ pre post,
    v.calls r p.auth = pre ++ (.xlock, req) :: post → (Op.unxlock, req) ∈ pre
  waiting : ∀ q ∈ v.slaves, q.1 ∈ p.replicas ∧ v.xlockBy p.auth ≠ some q
  once : ∀ r ∈ p.replicas, ∀ req, (v.calls r p.auth).count (.xlock, req) +
    (if (r, req) ∈ v.slaves then 1 else 0) + (v.calls p.auth r).count (.xlockack, req) ≤ 1

@[simp] theorem about_append (op : Op) (cs ds : List (Op × ℕ)) : about op (cs ++ ds) = about op cs ++ about op ds := by
  simp [about]

@[simp] theorem about_cons_self (op : Op) (req : ℕ) (cs : List (Op × ℕ)) : about op ((op, req) :: cs) = req :: about op cs := by
  simp [about]

variable {op : Op}

theorem about_cons_ne {op' : Op} (h : op' ≠ op) (req : ℕ) (cs : List (Op × ℕ)) :
    about op ((op', req) :: cs) = about op cs := by
  simp [about, h]

@[simp] theorem about_nil (op : Op) : about op [] = [] := rfl

variable {req : ℕ}

theorem mem_about {cs : List (Op × ℕ)} : req ∈ about op cs ↔ (op, req) ∈ cs := by
  unfold about
  simp only [List.mem_map, mem_filter, decide_eq_true_eq]
  constructor
  · rintro ⟨⟨op', req'⟩, ⟨hc, rfl⟩, rfl⟩
    exact hc
  · intro hc
    exact ⟨_, ⟨hc, rfl⟩, rfl⟩

section links

variable {α : Type} (l : Links α) {x : α} {r : ℕ}

theorem post_down (hn : n ∈ p.replicas) : (l.post p.auth r x) n p.auth = l n p.auth :=
  post_ne l x fun hab => p.ne_auth hn hab.1

theorem post_up (hr : r ∈ p.replicas) : (l.post r p.auth x) p.auth n = l p.auth n :=
  post_ne l x fun hab => p.ne_auth hr hab.1.symm

theorem take_down (hn : n ∈ p.replicas) : (l.take p.auth r 0) n p.auth = l n p.auth :=
  take_ne l fun hab => p.ne_auth hn hab.1

theorem take_up (hr : r ∈ p.replicas) : (l.take r p.auth 0) p.auth n = l p.auth n :=
  take_ne l fun hab => p.ne_auth hr hab.1.symm

end links

namespace Tokens

variable {r req : ℕ} {cs : List (Op × ℕ)}

theorem own_update (h : Tokens p v) {m : ℕ} {o : Option (ℕ × ℕ)} (ho : m ∈ p.replicas → ∀ q, o = some q → q.1 = m) :
    ∀ n ∈ p.replicas, ∀ q, update v.xlockBy m o n = some q → q.1 = n := by
  intro n hn q hq
  by_cases hnm : n = m
  · subst hnm
    rw [update_self] at hq
    exact ho hn q hq
  · rw [update_of_ne hnm] at hq
    exact h.own n hn q hq

/-- What is in `tokens` has the lock, for the authority. -/
theorem xlockBy_of_mem (h : Tokens p v) (hr : r ∈ p.replicas) (hm : req ∈ tokens p v r) :
    v.xlockBy p.auth = some (r, req) ∧ tokens p v r = [req] := by
  have ht := h.token r hr
  rw [ht] at hm
  rw [ht]
  unfold granted at hm ⊢
  cases hx : v.xlockBy p.auth with
  | none =>
    rw [hx] at hm
    cases hm
  | some q =>
    rw [hx] at hm
    dsimp only at hm ⊢
    split_ifs at hm ⊢ with hq
    · rw [mem_singleton] at hm
      subst hq hm
      exact ⟨rfl, rfl⟩
    · cases hm

theorem nil {r : ℕ} (h : Tokens p v) (hr : r ∈ p.replicas) (hx : v.xlockBy p.auth = none) :
    about .xlockack (v.calls p.auth r) = [] ∧ v.xlockBy r = none ∧ about .unxlock (v.calls r p.auth) = [] := by
  have ht : tokens p v r = [] := by
    rw [h.token r hr]
    simp [granted, hx]
  unfold tokens at ht
  rw [append_eq_nil_iff, append_eq_nil_iff] at ht
  exact ⟨ht.1.1, map_eq_none_iff.mp (toList_eq_nil_iff.mp ht.1.2), ht.2⟩

theorem grantLocal {req : ℕ} (h : Tokens p v) (hx : v.xlockBy p.auth = none) :
    Tokens p { v with xlockBy := update v.xlockBy p.auth (some (p.auth, req)) } where
  token := by
    intro r hr
    obtain ⟨hack, hheld, hun⟩ := h.nil hr hx
    simp [tokens, granted, p.ne_auth hr, hack, hheld, hun, (p.ne_auth hr).symm]
  own := h.own_update fun ha => absurd rfl (p.ne_auth ha)
  down := h.down
  up := h.up

/-- A request of a replica gets the lock, and the ack is sent. -/
theorem grantRemote {q : ℕ × ℕ} {slaves : Finset (ℕ × ℕ)} (h : Tokens p v) (hx : v.xlockBy p.auth = none) :
    Tokens p ⟨update v.xlockBy p.auth (some q), slaves, v.calls.post p.auth q.1 (.xlockack, q.2)⟩ where
  token := by
    intro r hr'
    obtain ⟨hack, hheld, hun⟩ := h.nil hr' hx
    have hup := post_down v.calls (x := (.xlockack, q.2)) (r := q.1) hr'
    by_cases hqr : q.1 = r
    · subst hqr
      simp [tokens, granted, hup, hack, p.ne_auth hr', hheld, hun]
    · have hdown : (v.calls.post p.auth q.1 (.xlockack, q.2)) p.auth r = v.calls p.auth r :=
        post_ne _ _ fun hab => hqr hab.2.symm
      simp [tokens, granted, hup, hdown, hack, p.ne_auth hr', hheld, hun, hqr]
  own := h.own_update fun ha => absurd rfl (p.ne_auth ha)
  down := by
    intro r hr' c hc
    rw [mem_post] at hc
    obtain hc | ⟨-, -, rfl⟩ := hc
    · exact h.down r hr' c hc
    · rfl
  up := fun r hr' => by simpa only [post_down _ hr'] using h.up r hr'

/-- A replica asks for the lock. -/
theorem ask {r : ℕ} (req : ℕ) (h : Tokens p v) (hr : r ∈ p.replicas) :
    Tokens p { v with calls := v.calls.post r p.auth (.xlock, req) } where
  token := by
    intro n hn
    have hun : about .unxlock ((v.calls.post r p.auth (.xlock, req)) n p.auth) = about .unxlock (v.calls n p.auth) := by
      by_cases hnr : n = r
      · subst hnr
        rw [post_self, about_append, about_cons_ne Op.noConfusion, about_nil, append_nil]
      · rw [post_ne _ _ fun hab => hnr hab.1]
    have ht := h.token n hn
    unfold tokens at ht ⊢
    dsimp only
    rw [post_up _ hr, hun]
    exact ht
  own := h.own
  down := fun n hn => by simpa only [post_up _ hr] using h.down n hn
  up := by
    intro n hn c hc
    rw [mem_post] at hc
    obtain hc | ⟨-, -, rfl⟩ := hc
    · exact h.up n hn c hc
    · nofun

theorem takeXlock (h : Tokens p v) (hr : r ∈ p.replicas)
    (hc : v.calls r p.auth = (.xlock, req) :: cs) : Tokens p { v with calls := v.calls.take r p.auth 0 } where
  token := by
    intro n hn
    have hun : about .unxlock ((v.calls.take r p.auth 0) n p.auth) = about .unxlock (v.calls n p.auth) := by
      by_cases hnr : n = r
      · subst hnr
        rw [take_head hc, hc, about_cons_ne Op.noConfusion]
      · rw [take_ne _ fun hab => hnr hab.1]
    have ht := h.token n hn
    unfold tokens at ht ⊢
    dsimp only
    rw [take_up _ hr, hun]
    exact ht
  own := h.own
  down := fun n hn c hm => h.down n hn c (mem_take hm)
  up := fun n hn c hm => h.up n hn c (mem_take hm)

/-- **The ack reaches the replica**: the lock is free there. -/
theorem ack (h : Tokens p v) (hr : r ∈ p.replicas)
    (hc : v.calls p.auth r = (.xlockack, req) :: cs) : v.xlockBy r = none ∧ Tokens p { v with
        xlockBy := update v.xlockBy r (some (r, req)), calls := v.calls.take p.auth r 0 } := by
  have hra := p.ne_auth hr
  have hmem : req ∈ tokens p v r := by simp [tokens, hc]
  obtain ⟨hx, ht⟩ := h.xlockBy_of_mem hr hmem
  unfold tokens at ht
  rw [hc, about_cons_self, cons_append, cons_append, List.cons.injEq, append_eq_nil_iff,
    append_eq_nil_iff] at ht
  obtain ⟨-, ⟨hacks, hheld⟩, hun⟩ := ht
  refine ⟨?_, ?_, ?_, fun n hn c hm => h.down n hn c (mem_take hm), fun n hn c hm => h.up n hn c (mem_take hm)⟩
  · exact map_eq_none_iff.mp (toList_eq_nil_iff.mp hheld)
  · intro n hn
    have hback := take_down v.calls (r := r) hn
    by_cases hnr : n = r
    · subst hnr
      simp [tokens, granted, hback, take_head hc, hacks, hun, hra.symm, hx]
    · have hdown : (v.calls.take p.auth r 0) p.auth n = v.calls p.auth n := take_ne _ fun hab => hnr hab.2
      have hn' := h.token n hn
      simpa [tokens, granted, hback, hdown, hnr, hra.symm] using hn'
  · exact h.own_update fun _ q hq => by cases hq; rfl

theorem finishLocal {req : ℕ} (h : Tokens p v) (hx : v.xlockBy p.auth = some (p.auth, req)) :
    Tokens p { v with xlockBy := update v.xlockBy p.auth none } where
  token := by
    intro r hr
    have ht := h.token r hr
    simpa [tokens, granted, hx, p.ne_auth hr, (p.ne_auth hr).symm] using ht
  own := h.own_update fun ha => absurd rfl (p.ne_auth ha)
  down := h.down
  up := h.up

/-- **A request of a replica gives the lock back**, which it has for the authority. -/
theorem finishRemote (h : Tokens p v) (hr : r ∈ p.replicas) (hx : v.xlockBy r = some (r, req)) :
    v.xlockBy p.auth = some (r, req) ∧ Tokens p { v with
      xlockBy := update v.xlockBy r none, calls := v.calls.post r p.auth (.unxlock, req) } := by
  have hra := p.ne_auth hr
  have hmem : req ∈ tokens p v r := by simp [tokens, hx]
  obtain ⟨hauth, ht⟩ := h.xlockBy_of_mem hr hmem
  refine ⟨hauth, ?_, ?_, ?_, ?_⟩
  · intro n hn
    have hdown := post_up v.calls (x := (.unxlock, req)) (n := n) hr
    by_cases hnr : n = r
    · subst hnr
      have hone := append_eq_singleton_iff.mp ht
      simp only [hx, map_some, toList_some, append_eq_nil_iff, append_eq_singleton_iff] at hone
      have hnil : about .xlockack (v.calls p.auth n) = [] ∧ about .unxlock (v.calls n p.auth) = [] := by
        simpa using hone
      simp [tokens, granted, hdown, hra.symm, hauth, hnil.1, hnil.2]
    · have hup : (v.calls.post r p.auth (.unxlock, req)) n p.auth = v.calls n p.auth :=
        post_ne _ _ fun hab => hnr hab.1
      have hn' := h.token n hn
      simpa [tokens, granted, hdown, hup, hnr, hra.symm] using hn'
  · exact h.own_update nofun
  · exact fun n hn => by simpa only [post_up _ hr] using h.down n hn
  · intro n hn c hc
    rw [mem_post] at hc
    obtain hc | ⟨-, -, rfl⟩ := hc
    · exact h.up n hn c hc
    · nofun

/-- **The release reaches the authority**, for which the request has the lock. -/
theorem release (h : Tokens p v) (hr : r ∈ p.replicas)
    (hc : v.calls r p.auth = (.unxlock, req) :: cs) : v.xlockBy p.auth = some (r, req) ∧ Tokens p { v with
      xlockBy := update v.xlockBy p.auth none, calls := v.calls.take r p.auth 0 } := by
  have hra := p.ne_auth hr
  have hmem : req ∈ tokens p v r := by simp [tokens, hc]
  obtain ⟨hauth, ht⟩ := h.xlockBy_of_mem hr hmem
  refine ⟨hauth, ?_, ?_, fun n hn c hm => h.down n hn c (mem_take hm), fun n hn c hm => h.up n hn c (mem_take hm)⟩
  · intro n hn
    have hdown := take_up v.calls (n := n) hr
    by_cases hnr : n = r
    · subst hnr
      unfold tokens at ht
      rw [hc, about_cons_self, append_eq_singleton_iff] at ht
      have hnil : (about .xlockack (v.calls p.auth n) = [] ∧ v.xlockBy n = none) ∧ about .unxlock cs = [] := by
        simpa using ht
      simp [tokens, granted, hdown, take_head hc, hra, hnil.1.1, hnil.1.2, hnil.2]
    · have hup : (v.calls.take r p.auth 0) n p.auth = v.calls n p.auth := take_ne _ fun hab => hnr hab.1
      have hn' := h.token n hn
      simpa [tokens, granted, hdown, hup, p.ne_auth hn, hauth, Ne.symm hnr] using hn'
  · exact h.own_update fun ha => absurd rfl (p.ne_auth ha)

end Tokens

theorem split_concat {α : Type} {l pre post : List α} {x y : α} (h : l ++ [x] = pre ++ y :: post) :
    (∃ post', l = pre ++ y :: post') ∨ (l = pre ∧ x = y) := by
  obtain rfl | ⟨post', z, rfl⟩ := eq_nil_or_concat post
  · obtain ⟨hl, hx⟩ := append_inj' h rfl
    exact .inr ⟨hl, singleton_inj.mp hx⟩
  · rw [concat_eq_append, ← cons_append, ← List.append_assoc] at h
    exact .inl ⟨post', (append_inj' h rfl).1⟩

namespace Asks

variable {r req : ℕ}

theorem once_iff {slaves : Finset (ℕ × ℕ)} {cs ds : List (Op × ℕ)} :
    cs.count (.xlock, req) + (if (r, req) ∈ slaves then 1 else 0) + ds.count (.xlockack, req) = 0 ↔
      (Op.xlock, req) ∉ cs ∧ (r, req) ∉ slaves ∧ (Op.xlockack, req) ∉ ds := by
  rw [Nat.add_eq_zero_iff, Nat.add_eq_zero_iff, count_eq_zero, count_eq_zero]
  by_cases h : (r, req) ∈ slaves
  · simp [h]
  · simp [h]

theorem free {x : ℕ → Option (ℕ × ℕ)} {calls : Links (Op × ℕ)} (h : Asks p v) (hx : x p.auth = none)
    (hc : ∀ r ∈ p.replicas, (calls r p.auth).Sublist (v.calls r p.auth) ∧ calls p.auth r = v.calls p.auth r) :
    Asks p ⟨x, v.slaves, calls⟩ where
  again := by
    intro r hr req hx'
    dsimp only at hx'
    rw [hx] at hx'
    cases hx'
  waiting := by
    intro q hq
    refine ⟨(h.waiting q hq).1, ?_⟩
    dsimp only
    rw [hx]
    nofun
  once := by
    intro r hr req
    have honce := h.once r hr req
    have hle := (hc r hr).1.count_le (.xlock, req)
    dsimp only
    rw [(hc r hr).2]
    omega

theorem grantLocal {req : ℕ} (h : Asks p v) :
    Asks p { v with xlockBy := update v.xlockBy p.auth (some (p.auth, req)) } where
  again := by
    intro r hr req' hx
    dsimp only at hx
    rw [update_self] at hx
    cases hx
    exact absurd rfl (p.ne_auth hr)
  waiting := by
    intro q hq
    refine ⟨(h.waiting q hq).1, ?_⟩
    dsimp only
    rw [update_self]
    rintro ⟨⟩
    exact p.ne_auth (h.waiting _ hq).1 rfl
  once := h.once

theorem grantRemote {q : ℕ × ℕ} (h : Asks p v) (hr : q.1 ∈ p.replicas)
    (hcall : (Op.xlock, q.2) ∉ v.calls q.1 p.auth) (hack : (Op.xlockack, q.2) ∉ v.calls p.auth q.1) :
    Asks p ⟨update v.xlockBy p.auth (some q), v.slaves.erase q, v.calls.post p.auth q.1 (.xlockack, q.2)⟩ where
  again := by
    intro r hr' req hx pre post hc
    dsimp only at hx hc
    rw [update_self] at hx
    cases hx
    rw [post_down _ hr'] at hc
    refine absurd ?_ hcall
    rw [hc]
    exact mem_append_right _ mem_cons_self
  waiting := by
    intro q' hq
    dsimp only at hq ⊢
    rw [Finset.mem_erase] at hq
    refine ⟨(h.waiting q' hq.2).1, ?_⟩
    rw [update_self]
    exact fun heq => hq.1 (some.inj heq).symm
  once := by
    intro r hr' req
    have honce := h.once r hr' req
    dsimp only
    rw [post_down _ hr']
    by_cases hq : q = (r, req)
    · subst hq
      rw [if_neg (Finset.notMem_erase _ _), post_self, count_append, count_eq_zero.mpr hcall,
        count_eq_zero.mpr hack]
      simp
    · have hsl : (r, req) ∈ v.slaves.erase q ↔ (r, req) ∈ v.slaves := by simp [Ne.symm hq]
      have hcount : ((v.calls.post p.auth q.1 (.xlockack, q.2)) p.auth r).count (.xlockack, req) =
          (v.calls p.auth r).count (.xlockack, req) := by
        by_cases hqr : r = q.1
        · subst hqr
          have hne : (Op.xlockack, q.2) ≠ (Op.xlockack, req) := by
            intro heq
            exact hq (Prod.ext rfl (Prod.mk.inj heq).2)
          simp [hne]
        · rw [post_ne _ _ fun hab => hqr hab.2]
      rw [hcount]
      simp only [hsl]
      exact honce

theorem wait {q : ℕ × ℕ} (h : Asks p v) (hr : q.1 ∈ p.replicas) (hx : v.xlockBy p.auth ≠ some q)
    (hcall : (Op.xlock, q.2) ∉ v.calls q.1 p.auth) (hack : (Op.xlockack, q.2) ∉ v.calls p.auth q.1) :
    Asks p { v with slaves := insert q v.slaves } where
  again := h.again
  waiting := by
    intro q' hq
    rw [Finset.mem_insert] at hq
    obtain rfl | hq := hq
    · exact ⟨hr, hx⟩
    · exact h.waiting q' hq
  once := by
    intro r hr' req
    by_cases hq : q = (r, req)
    · subst hq
      rw [if_pos (Finset.mem_insert_self _ _), count_eq_zero.mpr hcall, count_eq_zero.mpr hack]
    · have hsl : (r, req) ∈ insert q v.slaves ↔ (r, req) ∈ v.slaves := by simp [Ne.symm hq]
      simp only [hsl]
      exact h.once r hr' req

/-- A replica asks for a request that has the lock neither there nor under way. -/
theorem ask (h : Asks p v) (ht : Tokens p v) (hr : r ∈ p.replicas) (hx : v.xlockBy r ≠ some (r, req))
    (hcall : (Op.xlock, req) ∉ v.calls r p.auth) (hsl : (r, req) ∉ v.slaves)
    (hack : (Op.xlockack, req) ∉ v.calls p.auth r) : Asks p { v with calls := v.calls.post r p.auth (.xlock, req) } where
  again := by
    intro n hn req' hx' pre post hc
    dsimp only at hx' hc
    by_cases hnr : n = r
    · subst hnr
      rw [post_self] at hc
      obtain ⟨post', hc⟩ | ⟨hpre, heq⟩ := split_concat hc
      · exact h.again n hn req' hx' pre post' hc
      · -- of the token's three places only the releases are left
        cases heq
        rw [← hpre]
        have hmem : req ∈ tokens p v n := by
          rw [ht.token n hn]
          simp [granted, hx']
        unfold tokens at hmem
        rw [mem_append, mem_append, mem_about, mem_about] at hmem
        obtain (hm | hm) | hm := hmem
        · exact absurd hm hack
        · rw [mem_toList, map_eq_some_iff] at hm
          obtain ⟨q, hq, rfl⟩ := hm
          rw [hq] at hx
          exact absurd (congrArg some (Prod.ext (ht.own n hn q hq) rfl : q = (n, q.2))) hx
        · exact hm
    · rw [post_ne _ _ fun hab => hnr hab.1] at hc
      exact h.again n hn req' hx' pre post hc
  waiting := h.waiting
  once := by
    intro n hn req'
    have honce := h.once n hn req'
    dsimp only
    rw [post_up _ hr]
    by_cases hnr : n = r
    · subst hnr
      rw [post_self, count_append, count_singleton]
      by_cases hreq : req = req'
      · subst hreq
        rw [count_eq_zero.mpr hcall, count_eq_zero.mpr hack, if_neg hsl]
        simp
      · simpa [hreq] using honce
    · rw [post_ne _ _ fun hab => hnr hab.1]
      exact honce

/-- The authority takes up a request, which is then not under way. -/
theorem takeXlock {cs : List (Op × ℕ)} (h : Asks p v) (hr : r ∈ p.replicas)
    (hc : v.calls r p.auth = (.xlock, req) :: cs) : Asks p { v with calls := v.calls.take r p.auth 0 } ∧
      (r, req) ∉ v.slaves ∧ v.xlockBy p.auth ≠ some (r, req) ∧ (Op.xlock, req) ∉ (v.calls.take r p.auth 0) r p.auth ∧
        (Op.xlockack, req) ∉ (v.calls.take r p.auth 0) p.auth r := by
  have hone := h.once r hr req
  rw [hc, count_cons_self] at hone
  have hzero : cs.count (.xlock, req) + (if (r, req) ∈ v.slaves then 1 else 0) +
      (v.calls p.auth r).count (.xlockack, req) = 0 := by omega
  obtain ⟨hcall, hsl, hack⟩ := once_iff.mp hzero
  refine ⟨⟨?_, h.waiting, ?_⟩, hsl, ?_, ?_, ?_⟩
  · intro n hn req' hx pre post heq
    dsimp only at hx heq
    by_cases hnr : n = r
    · subst hnr
      rw [take_head hc] at heq
      have hm := h.again n hn req' hx ((.xlock, req) :: pre) post (by rw [hc, heq]; rfl)
      rw [mem_cons] at hm
      obtain hm | hm := hm
      · cases hm
      · exact hm
    · rw [take_ne _ fun hab => hnr hab.1] at heq
      exact h.again n hn req' hx pre post heq
  · intro n hn req'
    have honce := h.once n hn req'
    have hle := (take_sublist v.calls r p.auth 0 n p.auth).count_le (Op.xlock, req')
    dsimp only
    rw [take_up _ hr]
    omega
  · intro hx
    have hm := h.again r hr req hx [] cs hc
    cases hm
  · rw [take_head hc]
    exact hcall
  · rw [take_up _ hr]
    exact hack

variable {o : Option (ℕ × ℕ)}

theorem ack {r : ℕ} (h : Asks p v) (hr : r ∈ p.replicas) :
    Asks p { v with xlockBy := update v.xlockBy r o, calls := v.calls.take p.auth r 0 } where
  again := by
    intro n hn req hx pre post hc
    dsimp only at hx hc
    rw [update_of_ne (p.ne_auth hr).symm] at hx
    rw [take_down _ hn] at hc
    exact h.again n hn req hx pre post hc
  waiting := by
    intro q hq
    dsimp only
    rw [update_of_ne (p.ne_auth hr).symm]
    exact h.waiting q hq
  once := by
    intro n hn req
    have honce := h.once n hn req
    have hle := (take_sublist v.calls p.auth r 0 p.auth n).count_le (Op.xlockack, req)
    dsimp only
    rw [take_down _ hn]
    omega

theorem finishRemote (h : Asks p v) (hr : r ∈ p.replicas) : Asks p { v with
      xlockBy := update v.xlockBy r o, calls := v.calls.post r p.auth (.unxlock, req) } where
  again := by
    intro n hn req' hx pre post hc
    dsimp only at hx hc
    rw [update_of_ne (p.ne_auth hr).symm] at hx
    by_cases hnr : n = r
    · subst hnr
      rw [post_self] at hc
      obtain ⟨post', hc⟩ | ⟨-, heq⟩ := split_concat hc
      · exact h.again n hn req' hx pre post' hc
      · cases heq
    · rw [post_ne _ _ fun hab => hnr hab.1] at hc
      exact h.again n hn req' hx pre post hc
  waiting := by
    intro q hq
    dsimp only
    rw [update_of_ne (p.ne_auth hr).symm]
    exact h.waiting q hq
  once := by
    intro n hn req'
    have honce := h.once n hn req'
    dsimp only
    rw [post_up _ hr]
    by_cases hnr : n = r
    · subst hnr
      simpa using honce
    · rw [post_ne _ _ fun hab => hnr hab.1]
      exact honce

end Asks

/-! ### The invariant -/

structure Inv (p : Placement) (s : State) : Prop where
  ok : s.failed = false
  gathers : Gathers p s
  tokens : Tokens p s.view
  asks : Asks p s.view
  locked : (s.locks p.auth).xlockBy ≠ none → (s.locks p.auth).state = .lock
  links : ∀ i j, s.net i j ≠ [] → p.Link i j
  off : ∀ n, ¬ p.On n → s.locks n = fresh

theorem inv_start (p : Placement) : Inv p start where
  ok := rfl
  gathers := ⟨fun _ _ => .synced, Finset.empty_subset _, fun _ _ => rfl, fun _ _ => rfl⟩
  tokens := ⟨fun _ _ => rfl, fun _ _ _ hq => (some_ne_none _ hq.symm).elim,
    fun _ _ _ hc => (not_mem_nil hc).elim, fun _ _ _ hc => (not_mem_nil hc).elim⟩
  asks := ⟨fun _ _ _ hx => (some_ne_none _ hx.symm).elim, fun _ hq => (Finset.notMem_empty _ hq).elim,
    fun _ _ _ => Nat.zero_le 1⟩
  locked := fun h => absurd rfl h
  links := fun _ _ h => absurd rfl h
  off := fun _ _ => rfl

namespace Inv

theorem within (h : Inv p s) (hw : Within p s s') (hf : s'.failed = s.failed) (hg : Gathers p s')
    (ht : Tokens p s'.view) (ha : Asks p s'.view)
    (hl : (s'.locks p.auth).xlockBy ≠ none → (s'.locks p.auth).state = .lock) : Inv p s' where
  ok := hf.trans h.ok
  gathers := hg
  tokens := ht
  asks := ha
  locked := hl
  links := fun i j hne => (hw.net i j hne).elim (h.links i j) id
  off := fun n hn => (hw.locks n hn).trans (h.off n hn)

theorem keeps (h : Inv p s) (hgk : Gathers p s' ∧ Keeps p s s')
    (hl : (s.locks p.auth).xlockBy ≠ none → (s'.locks p.auth).state = .lock) : Inv p s' := by
  obtain ⟨hg, hk⟩ := hgk
  refine h.within hk.toWithin hk.failed hg (hk.view ▸ h.tokens) (hk.view ▸ h.asks) ?_
  rw [hk.xlockBy]
  exact hl

theorem on_of_ne (h : Inv p s) {n : ℕ} (hn : s.locks n ≠ fresh) : p.On n :=
  not_not.mp fun hoff => hn (h.off n hoff)

/-- While the authority is not in `LOCK`, nobody has the exclusive lock. -/
theorem free_of_ne (h : Inv p s) (hst : (s.locks p.auth).state ≠ .lock) : (s.locks p.auth).xlockBy = none :=
  not_not.mp fun hx => hst (h.locked hx)

end Inv

theorem Gathers.put_xlock {o : Option (ℕ × ℕ)} {w : Bool} (h : Gathers p s) :
    Gathers p (s.put n { s.locks n with xlockBy := o, waitWr := w }) := h.put rfl rfl (h.quiet n)

theorem Gathers.send_slave (h : Gathers p s) : Gathers p (s.send i j (.slave op req)) :=
  h.congr (fun _ => rfl) (fun _ => rfl) (mlocks_send_slave op req) h.quiet

theorem Gathers.taken {ms : List Msg} (h : Gathers p s)
    (hnet : s.net i j = .slave op req :: ms) : Gathers p (s.taken i j) :=
  h.congr (fun _ => rfl) (fun _ => rfl) (mlocks_slave hnet) h.quiet

variable {q : ℕ × ℕ}

theorem getXlock_eq (hx : (s.locks n).xlockBy = none) :
    getXlock s n q = s.put n { s.locks n with xlockBy := some q } := by
  unfold getXlock
  rw [check_eq (by rw [hx]; rfl)]

theorem simpleXlockFinish_eq (hx : (s.locks n).xlockBy = some q) (hst : (s.locks n).state = .lock) :
    simpleXlockFinish p s n q =
      if n = p.auth then s.put n { s.locks n with xlockBy := none, waitWr := false }
      else (s.put n { s.locks n with xlockBy := none, waitWr := false }).send n p.auth (.slave .unxlock q.2) := by
  have hcheck : s.check ((s.locks n).canXlock (n = p.auth) q && (s.locks n).xlockBy.isSome) = s :=
    check_eq (by simp [Lock.canXlock, hx, hst])
  unfold simpleXlockFinish
  rw [hcheck]

/-- **The authority asked for the lock.** The readers are made to give up, and the
lock is given if that is done; else the request is to wait. -/
theorem xlockStart_auth (h : Inv p s) (hx : (s.locks p.auth).xlockBy ≠ some q)
    (hread : p.replicas = ∅ → (s.locks p.auth).state = .sync → (s.locks p.auth).numRdlock = 0) :
    ∃ t, Inv p t ∧ Keeps p s t ∧ (simpleXlockStart p s p.auth q = (t, false) ∨
      (t.locks p.auth).xlockBy = none ∧ (t.locks p.auth).state = .lock ∧
        simpleXlockStart p s p.auth q = (getXlock t p.auth q, true)) := by
  obtain ⟨t, ht, hk, heq⟩ : ∃ t, Inv p t ∧ Keeps p s t ∧
      (if (s.locks p.auth).state = .sync then simpleLock p s else s) = t := by
    split_ifs with hst
    · have hgk := h.gathers.simpleLock hst fun hr => hread hr hst
      have hfree : (s.locks p.auth).xlockBy = none := h.free_of_ne (by rw [hst]; nofun)
      exact ⟨_, h.keeps hgk fun hne => absurd hfree hne, hgk.2, rfl⟩
    · exact ⟨s, h, .refl s, rfl⟩
  unfold simpleXlockStart
  rw [if_neg hx, if_pos rfl]
  rw [heq]
  by_cases hst : (t.locks p.auth).state = .lock
  · rw [if_pos hst]
    by_cases hsome : (t.locks p.auth).xlockBy.isSome
    · rw [if_pos hsome]
      have hput : Keeps p t (t.put p.auth { t.locks p.auth with waitWr := true }) := Keeps.put p.on_auth rfl
      refine ⟨_, ht.keeps ⟨ht.gathers.put_xlock, hput⟩ fun _ => ?_, hk.trans hput, .inl rfl⟩
      rw [locks_put_self]
      exact hst
    · rw [if_neg hsome]
      rw [not_isSome_iff_eq_none] at hsome
      exact ⟨t, ht, hk, .inr ⟨hsome, hst, rfl⟩⟩
  · rw [if_neg hst]
    exact ⟨t, ht, hk, .inl rfl⟩

namespace Inv

theorem xlockLocal {req : ℕ} (h : Inv p s)
    (hread : p.replicas = ∅ → (s.locks p.auth).state = .sync → (s.locks p.auth).numRdlock = 0) :
    Inv p (simpleXlockStart p s p.auth (p.auth, req)).1 := by
  by_cases hx : (s.locks p.auth).xlockBy = some (p.auth, req)
  · rw [simpleXlockStart, if_pos hx]
    exact h
  · obtain ⟨t, ht, -, heq | ⟨hfree, hst, heq⟩⟩ := xlockStart_auth h hx hread
    · rw [heq]
      exact ht
    · rw [heq, getXlock_eq hfree]
      refine ht.within (Within.put p.on_auth) rfl ht.gathers.put_xlock ?_ ?_ fun _ => ?_
      · rw [view_put]
        exact ht.tokens.grantLocal hfree
      · rw [view_put]
        exact ht.asks.grantLocal
      · rw [locks_put_self]
        exact hst

/-- A request of a replica is taken up by the authority. -/
theorem dispatch {q : ℕ × ℕ} (h : Inv p s) (hr : q.1 ∈ p.replicas) (hx : (s.locks p.auth).xlockBy ≠ some q)
    (hcall : (Op.xlock, q.2) ∉ s.calls q.1 p.auth) (hack : (Op.xlockack, q.2) ∉ s.calls p.auth q.1) :
    Inv p (dispatchXlock p s q) := by
  have hne : p.replicas ≠ ∅ := Finset.ne_empty_of_mem hr
  obtain ⟨t, ht, hk, heq | ⟨hfree, hst, heq⟩⟩ := xlockStart_auth h hx fun hemp => absurd hemp hne
  · have hcalls : t.calls = s.calls := congrArg View.calls hk.view
    simp only [dispatchXlock, heq]
    refine ht.within Within.slaves rfl (ht.gathers.congr (fun _ => rfl) (fun _ => rfl) rfl ht.gathers.quiet) ?_ ?_ ht.locked
    · exact ⟨ht.tokens.token, ht.tokens.own, ht.tokens.down, ht.tokens.up⟩
    · refine ht.asks.wait hr ?_ (by rw [← hcalls] at hcall; exact hcall) (by rw [← hcalls] at hack; exact hack)
      show (t.locks p.auth).xlockBy ≠ some q
      rw [hk.xlockBy]
      exact hx
  · have hcalls : t.view.calls = s.calls := congrArg View.calls hk.view
    simp only [dispatchXlock, heq, getXlock_eq hfree]
    have hview : (({ t.put p.auth { t.locks p.auth with xlockBy := some q } with slaves := t.slaves.erase q } : State).send
        p.auth q.1 (.slave .xlockack q.2)).view =
        ⟨update t.view.xlockBy p.auth (some q), t.view.slaves.erase q,
          t.view.calls.post p.auth q.1 (.xlockack, q.2)⟩ := by
      rw [view_send]
      exact congrArg (fun w : View => (⟨w.xlockBy, t.slaves.erase q, w.calls.post p.auth q.1 (.xlockack, q.2)⟩ : View))
        (view_put p.auth { t.locks p.auth with xlockBy := some q })
    refine ht.within ((Within.put p.on_auth).trans (Within.slaves.trans (Within.send _ (.inl ⟨rfl, hr⟩)))) rfl
      (Gathers.send_slave (Gathers.congr ht.gathers.put_xlock (fun _ => rfl) (fun _ => rfl) rfl ?_)) ?_ ?_ fun _ => ?_
    · exact ht.gathers.put_xlock.quiet
    · exact hview ▸ ht.tokens.grantRemote hfree
    · exact hview ▸ ht.asks.grantRemote hr (by rw [hcalls]; exact hcall) (by rw [hcalls]; exact hack)
    · show ((t.put p.auth _).locks p.auth).state = .lock
      rw [locks_put_self]
      exact hst

theorem xlockRemote {r req : ℕ} (h : Inv p s) (hr : r ∈ p.replicas)
    (hask : (s.locks r).xlockBy ≠ some (r, req) →
      (Op.xlock, req) ∉ s.calls r p.auth ∧ (r, req) ∉ s.slaves ∧ (Op.xlockack, req) ∉ s.calls p.auth r) :
    Inv p (simpleXlockStart p s r (r, req)).1 := by
  unfold simpleXlockStart
  by_cases hx : (s.locks r).xlockBy = some (r, req)
  · rw [if_pos hx]
    exact h
  · obtain ⟨hcall, hsl, hack⟩ := hask hx
    rw [if_neg hx, if_neg (p.ne_auth hr)]
    refine h.within (Within.send _ (.inr ⟨hr, rfl⟩)) rfl h.gathers.send_slave ?_ ?_ h.locked
    · exact view_send (s := s) .xlock req ▸ h.tokens.ask req hr
    · exact view_send (s := s) .xlock req ▸ h.asks.ask h.tokens hr hx hcall hsl hack

theorem xunlockLocal {req : ℕ} (h : Inv p s) (hx : (s.locks p.auth).xlockBy = some (p.auth, req)) :
    Inv p (simpleXlockFinish p s p.auth (p.auth, req)) := by
  have hst := h.locked (by rw [hx]; nofun)
  rw [simpleXlockFinish_eq hx hst, if_pos rfl]
  refine h.within (Within.put p.on_auth) rfl h.gathers.put_xlock ?_ ?_ fun hne => ?_
  · rw [view_put]
    exact h.tokens.finishLocal hx
  · rw [view_put]
    exact h.asks.free (update_self ..) fun r _ => ⟨.refl _, rfl⟩
  · rw [locks_put_self] at hne
    exact absurd rfl hne

/-- A request of a replica gives the lock back; the replica is in `LOCK` then. -/
theorem xunlockRemote {r req : ℕ} (h : Inv p s) (hr : r ∈ p.replicas) (hx : (s.locks r).xlockBy = some (r, req)) :
    Inv p (simpleXlockFinish p s r (r, req)) := by
  have hra := p.ne_auth hr
  obtain ⟨hauth, htok⟩ := h.tokens.finishRemote hr hx
  have hst : (s.locks r).state = .lock := by
    have hphase := h.gathers.phase r hr
    unfold PhaseOf at hphase
    rw [h.locked (by rw [show (s.locks p.auth).xlockBy = _ from hauth]; nofun)] at hphase
    exact hphase.of_lock.2.1
  have hview : ((s.put r { s.locks r with xlockBy := none, waitWr := false }).send r p.auth (.slave .unxlock req)).view =
      { s.view with
        xlockBy := update s.view.xlockBy r none, calls := s.view.calls.post r p.auth (.unxlock, req) } := by
    rw [view_send, view_put]
  rw [simpleXlockFinish_eq hx hst, if_neg hra]
  refine h.within ((Within.put (.inr hr)).trans (Within.send _ (.inr ⟨hr, rfl⟩))) rfl h.gathers.put_xlock.send_slave
    ?_ ?_ ?_
  · rw [hview]
    exact htok
  · rw [hview]
    exact h.asks.finishRemote hr
  · rw [locks_send, locks_put_ne _ hra.symm]
    exact h.locked

variable {ms : List Msg}

theorem view_taken {i j : ℕ} {op : Op} {req : ℕ} (hnet : s.net i j = .slave op req :: ms) :
    (s.taken i j).view = { s.view with calls := s.view.calls.take i j 0 } := by
  unfold State.view
  rw [(calls_head hnet).2]
  rfl

/-- **A slave request or its answer received.** -/
theorem slaveRequest {i j req : ℕ} {op : Op} (h : Inv p s) (hnet : s.net i j = .slave op req :: ms) :
    Inv p (handleSlaveRequest p (s.taken i j) i j req op) := by
  obtain ⟨⟨cs, hcs⟩, -⟩ := calls_head hnet
  have hmem : (op, req) ∈ s.calls i j := by
    rw [hcs]
    exact mem_cons_self
  obtain ⟨rfl, hr⟩ | ⟨hr, rfl⟩ := h.links i j (by rw [hnet]; nofun)
  · -- an ack at a replica
    obtain rfl : op = .xlockack := h.tokens.down j hr _ hmem
    obtain ⟨hfree, htok⟩ := h.tokens.ack hr hcs
    have hview : ((s.taken p.auth j).put j { s.locks j with xlockBy := some (j, req) }).view =
        { s.view with
          xlockBy := update s.view.xlockBy j (some (j, req)), calls := s.view.calls.take p.auth j 0 } := by
      rw [view_put, view_taken hnet]
    change Inv p (getXlock (s.taken p.auth j) j (j, req))
    rw [getXlock_eq (s := s.taken p.auth j) hfree]
    refine h.within ((Within.taken p.auth j).trans (Within.put (.inr hr))) rfl (h.gathers.taken hnet).put_xlock ?_ ?_ ?_
    · exact hview ▸ htok
    · exact hview ▸ h.asks.ack hr
    · rw [locks_put_ne _ (p.ne_auth hr).symm]
      exact h.locked
  · cases op with
    | xlock =>
      obtain ⟨hasks, hsl, hx, hcall, hack⟩ := h.asks.takeXlock hr hcs
      have hcheck : (s.taken i p.auth).check (decide ((i, req) ∉ (s.taken i p.auth).slaves)) = s.taken i p.auth :=
        check_eq (decide_eq_true hsl)
      have htaken : Inv p (s.taken i p.auth) := by
        refine h.within (Within.taken i p.auth) rfl (h.gathers.taken hnet) ?_ ?_ h.locked
        · exact view_taken hnet ▸ h.tokens.takeXlock hr hcs
        · exact view_taken hnet ▸ hasks
      have hcalls : (s.taken i p.auth).calls = s.calls.take i p.auth 0 := (calls_head hnet).2
      simp only [handleSlaveRequest, hcheck, if_true]
      exact htaken.dispatch hr hx (by rw [hcalls]; exact hcall) (by rw [hcalls]; exact hack)
    | xlockack => exact absurd rfl (h.tokens.up i hr _ hmem)
    | unxlock =>
      obtain ⟨hauth, htok⟩ := h.tokens.release hr hcs
      have hst := h.locked (by rw [show (s.locks p.auth).xlockBy = _ from hauth]; nofun)
      have hsl : (i, req) ∉ s.slaves := fun hm => (h.asks.waiting _ hm).2 hauth
      have hcheck : (s.taken i p.auth).check (decide ((i, req) ∉ (s.taken i p.auth).slaves)) = s.taken i p.auth :=
        check_eq (decide_eq_true hsl)
      have hview : ((s.taken i p.auth).put p.auth { s.locks p.auth with xlockBy := none, waitWr := false }).view =
          { s.view with
            xlockBy := update s.view.xlockBy p.auth none, calls := s.view.calls.take i p.auth 0 } := by
        rw [view_put, view_taken hnet]
      simp only [handleSlaveRequest, hcheck]
      rw [simpleXlockFinish_eq (s := s.taken i p.auth) hauth hst, if_pos rfl]
      refine h.within ((Within.taken i p.auth).trans (Within.put p.on_auth)) rfl (h.gathers.taken hnet).put_xlock ?_ ?_
        fun hne => ?_
      · exact hview ▸ htok
      · refine hview ▸ h.asks.free (update_self ..) fun r hr' => ⟨take_sublist .., ?_⟩
        exact take_up _ hr
      · rw [locks_put_self] at hne
        exact absurd rfl hne

end Inv

/-! ### Exclusion -/

/-- While a request has the exclusive lock, no request reads. -/
def Excludes (s : State) : Prop := ∀ n q, (s.locks n).xlockBy = some q → ∀ m, (s.locks m).numRdlock = 0

/-- The request `req` of the replica `r` for the lock is on its way, waits at the
authority, or is answered. -/
def Asked (p : Placement) (s : State) (r req : ℕ) : Prop :=
  (Op.xlock, req) ∈ s.calls r p.auth ∨ (r, req) ∈ s.slaves ∨ (Op.xlockack, req) ∈ s.calls p.auth r

/-- The lock is not asked for on the authority while somebody reads there and there are
no replicas, and not on a replica for a request that has asked for it. -/
def Careful (p : Placement) (s : State) : Act → Prop
  | .xlock n req =>
    if n = p.auth then p.replicas = ∅ → (s.locks n).state = .sync → (s.locks n).numRdlock = 0
    else (s.locks n).xlockBy ≠ some (n, req) → ¬ Asked p s n req
  | _ => True

theorem Inv.excludes (h : Inv p s) : Excludes s := by
  intro n q hq m
  have hn : p.On n := h.on_of_ne fun hf => by rw [hf] at hq; cases hq
  have hauth : (s.locks p.auth).xlockBy ≠ none := by
    obtain rfl | hr := hn
    · rw [hq]
      nofun
    · have hown : q.1 = n := h.tokens.own n hr q hq
      have hnq : s.view.xlockBy n = some (n, q.2) := hq.trans (congrArg some (Prod.ext hown rfl))
      rw [show (s.locks p.auth).xlockBy = _ from (h.tokens.finishRemote hr hnq).1]
      nofun
  have hst := h.locked hauth
  by_cases hm : p.On m
  · refine h.gathers.quiet m ?_
    obtain rfl | hr := hm
    · exact hst
    · have hphase := h.gathers.phase m hr
      unfold PhaseOf at hphase
      rw [hst] at hphase
      exact hphase.of_lock.2.1
  · rw [h.off m hm]
    rfl

theorem setState_ne (st : LState) (h : m ≠ n) : (s.setState n st).locks m = s.locks m :=
  locks_put_ne _ h

theorem simpleEvalGather_ne (h : m ≠ n) : (simpleEvalGather p s n).locks m = s.locks m := by
  unfold simpleEvalGather
  split_ifs
  · rw [locks_put_ne _ h, setState_ne _ h]
  · rw [locks_put_ne _ h, setState_ne _ h, locks_send]
  · rfl

theorem handleSimpleLock_ne {a : Action} (h : m ≠ n) : (handleSimpleLock p s i n a).locks m = s.locks m := by
  unfold handleSimpleLock
  cases a with
  | sync => exact setState_ne _ h
  | lock =>
    dsimp only
    split_ifs
    · exact setState_ne _ h
    · exact setState_ne _ h
  | lockack =>
    dsimp only
    split_ifs
    · rw [simpleEvalGather_ne h]
      exact locks_put_ne _ h
    · exact locks_put_ne _ h

theorem step_receive (h : step p s (.receive i j) = some s') :
    ∃ m ms, s.net i j = m :: ms ∧ s' = handle p (s.taken i j) i j m := by
  unfold step at h
  dsimp only at h
  split at h
  · cases h
  · rename_i m ms hnet
    exact ⟨m, ms, hnet, (some.inj h).symm⟩

/-- A change of readers does not take the authority out of `LOCK`. -/
theorem simpleEvalGather_lock (hst : (s.locks p.auth).state = .lock) :
    ((simpleEvalGather p s n).locks p.auth).state = .lock := by
  by_cases hn : p.auth = n
  · subst hn
    rw [simpleEvalGather, if_neg fun hd => by rw [hst] at hd; cases hd.1]
    exact hst
  · rw [simpleEvalGather_ne hn]
    exact hst

theorem put_lock {l : Lock} (hst : (s.locks p.auth).state = .lock) (hl : l.state = (s.locks n).state) :
    ((s.put n l).locks p.auth).state = .lock := by
  by_cases hn : p.auth = n
  · subst hn
    rw [locks_put_self, hl]
    exact hst
  · rw [locks_put_ne _ hn]
    exact hst

theorem simpleRdlockFinish_lock (hst : (s.locks p.auth).state = .lock) :
    ((simpleRdlockFinish p s n).locks p.auth).state = .lock := by
  unfold simpleRdlockFinish
  dsimp only
  split_ifs
  · exact simpleEvalGather_lock (put_lock hst rfl)
  · exact put_lock hst rfl

/-- **The invariant is kept.** -/
theorem step_inv {a : Act} (h : Inv p s) (hok : Careful p s a) (hs : step p s a = some s') : Inv p s' := by
  cases a with
  | rdlock n =>
    obtain ⟨hn, ⟨⟩⟩ := ite_none_right_eq_some.mp hs
    refine h.keeps (h.gathers.simpleRdlockStart hn) fun hx => ?_
    unfold simpleRdlockStart
    split_ifs
    · exact put_lock (h.locked hx) rfl
    · exact h.locked hx
  | rdunlock n =>
    obtain ⟨hread, ⟨⟩⟩ := ite_none_right_eq_some.mp hs
    have hn : p.On n := h.on_of_ne fun hf => by rw [hf] at hread; exact absurd hread (lt_irrefl 0)
    exact h.keeps (h.gathers.simpleRdlockFinish hn hread) fun hx => simpleRdlockFinish_lock (h.locked hx)
  | xlock n req =>
    obtain ⟨hn, ⟨⟩⟩ := ite_none_right_eq_some.mp hs
    obtain rfl | hr := hn
    · refine h.xlockLocal ?_
      unfold Careful at hok
      dsimp only at hok
      rwa [if_pos rfl] at hok
    · refine h.xlockRemote hr fun hx => ?_
      unfold Careful Asked at hok
      dsimp only at hok
      rw [if_neg (p.ne_auth hr)] at hok
      have hnone := hok hx
      rw [not_or, not_or] at hnone
      exact hnone
  | xunlock n req =>
    obtain ⟨hx, ⟨⟩⟩ := ite_none_right_eq_some.mp hs
    have hn : p.On n := h.on_of_ne fun hf => by rw [hf] at hx; cases hx
    obtain rfl | hr := hn
    · exact h.xunlockLocal hx
    · exact h.xunlockRemote hr hx
  | retry r req =>
    obtain ⟨hsl, ⟨⟩⟩ := ite_none_right_eq_some.mp hs
    obtain ⟨hr, hx⟩ := h.asks.waiting _ hsl
    have honce := h.asks.once r hr req
    rw [if_pos (show (r, req) ∈ s.view.slaves from hsl)] at honce
    have hcall : (s.view.calls r p.auth).count (.xlock, req) = 0 := by omega
    have hack : (s.view.calls p.auth r).count (.xlockack, req) = 0 := by omega
    exact h.dispatch hr hx (count_eq_zero.mp hcall) (count_eq_zero.mp hack)
  | eval =>
    obtain ⟨hst, ⟨⟩⟩ := ite_none_right_eq_some.mp hs
    unfold simpleEval
    split_ifs with hc
    · have hlock : (s.locks p.auth).state = .lock := by
        cases hstate : (s.locks p.auth).state with
        | sync => exact absurd hstate hc.2.1
        | lock => rfl
        | glockr =>
          rw [hstate] at hst
          cases hst
      exact h.keeps (h.gathers.simpleSync hlock) fun hx => absurd hc.1 hx
    · exact h
  | receive i j =>
    obtain ⟨m, ms, hnet, rfl⟩ := step_receive hs
    cases m with
    | mlock action =>
      obtain ⟨rfl, hr⟩ | ⟨hr, rfl⟩ := h.links i j (by rw [hnet]; nofun)
      · refine h.keeps (h.gathers.toReplica hr hnet) fun hx => ?_
        rw [handle, handleSimpleLock_ne (p.ne_auth hr).symm]
        exact h.locked hx
      · have hphase := h.gathers.phase i hr
        unfold PhaseOf at hphase
        rw [mlocks_head hnet] at hphase
        have hfree := h.free_of_ne (by rw [hphase.up_head.2.1]; nofun)
        exact h.keeps (h.gathers.toAuth hr hnet) fun hx => absurd hfree hx
    | slave op req => exact h.slaveRequest hnet

/-- **Simple locks exclude**, in every run whose steps are careful, and no assertion fails. -/
theorem simple_locks_exclude (p : Placement) {s : State} (h : Run.Reach (step p) (Careful p) start s) :
    Excludes s ∧ s.failed = false := by
  have hinv := h.inv (Inv p) (inv_start p) fun s a s' hi hok hs => step_inv hi hok hs
  exact ⟨hinv.excludes, hinv.ok⟩

/-- The authority has whoever has the lock. -/
theorem Inv.holder (h : Inv p s) {n : ℕ} {q : ℕ × ℕ} (hq : (s.locks n).xlockBy = some q) :
    (s.locks p.auth).xlockBy = some q := by
  have hn : p.On n := h.on_of_ne fun hf => by rw [hf] at hq; cases hq
  obtain rfl | hr := hn
  · exact hq
  · obtain rfl : q.1 = n := h.tokens.own n hr q hq
    exact (h.tokens.finishRemote hr hq).1

/-- The replica agrees with the authority. -/
structure Settled (p : Placement) (s : State) (r : ℕ) : Prop where
  state : (s.locks p.auth).state.isStable = true → (s.locks r).state = (s.locks p.auth).state
  gathers : r ∈ (s.locks p.auth).gatherSet ↔ (s.locks r).state = .glockr
  holder : ∀ req, (s.locks p.auth).xlockBy = some (r, req) → (s.locks r).xlockBy = some (r, req)

/-- **One request at a time** has the exclusive lock. The authority knows it, and a
replica agrees with it whenever nothing is in flight between the two. -/
theorem one_request_at_a_time (p : Placement) {s : State} (h : Run.Reach (step p) (Careful p) start s) :
    (∀ n q, (s.locks n).xlockBy = some q → (s.locks p.auth).xlockBy = some q) ∧
      ∀ r ∈ p.replicas, s.net p.auth r = [] → s.net r p.auth = [] → Settled p s r := by
  have hinv := h.inv (Inv p) (inv_start p) fun s a s' => step_inv
  refine ⟨fun n q => hinv.holder, fun r hr hdown hup => ?_⟩
  have hphase := hinv.gathers.phase r hr
  have htoken := hinv.tokens.token r hr
  unfold PhaseOf State.mlocks at hphase
  rw [hdown, hup] at hphase
  obtain ⟨hstate, hgather⟩ := hphase.settled
  refine ⟨hstate, decide_eq_true_iff.symm.trans hgather, fun req hreq => ?_⟩
  cases hx : (s.locks r).xlockBy with
  | none => simp [tokens, granted, State.view, State.calls, hdown, hup, hx, hreq] at htoken
  | some q => rw [← hreq, hinv.holder hx]

instance (p : Placement) (s : State) (r req : ℕ) : Decidable (Asked p s r req) := by
  unfold Asked
  infer_instance

instance (p : Placement) (s : State) (a : Act) : Decidable (Careful p s a) := by
  cases a <;> unfold Careful <;> infer_instance

/-- An authority and two replicas. -/
def three : Placement := ⟨0, {1, 2}, by decide⟩

/-- A request of a replica asks while there are readers, and gets the lock when they have gone. -/
theorem simple_locks_exclude_three : ∃ s, Run.Reach (step three) (Careful three) start s ∧
    (s.locks 1).xlockBy = some (1, 7) ∧ Excludes s ∧ s.failed = false := by
  have h : (Run.exec (step three) (Careful three) [.rdlock 0, .rdlock 1, .xlock 1 7, .receive 1 0, .receive 0 1,
      .receive 0 2, .receive 2 0, .rdunlock 0, .rdunlock 1, .receive 1 0, .retry 1 7, .receive 0 1] start).map
        (fun s => (s.locks 1).xlockBy) = some (some (1, 7)) := by decide +kernel
  obtain ⟨s, hs, hx⟩ := map_eq_some_iff.mp h
  have hr := Run.reach_of_exec hs
  exact ⟨s, hr, hx, simple_locks_exclude three hr⟩

/-- The authority's own request gets the lock when both replicas have given up reading. -/
theorem one_request_three : ∃ s, Run.Reach (step three) (Careful three) start s ∧ (s.locks 0).xlockBy = some (0, 7) ∧
    (∀ n q, (s.locks n).xlockBy = some q → (s.locks 0).xlockBy = some q) ∧
      ∀ r ∈ three.replicas, s.net 0 r = [] → s.net r 0 = [] → Settled three s r := by
  have h : (Run.exec (step three) (Careful three) [.xlock 0 7, .receive 0 1, .receive 0 2, .receive 1 0, .receive 2 0,
      .xlock 0 7] start).map (fun s => (s.locks 0).xlockBy) = some (some (0, 7)) := by decide +kernel
  obtain ⟨s, hs, hx⟩ := map_eq_some_iff.mp h
  have hr := Run.reach_of_exec hs
  exact ⟨s, hr, hx, one_request_at_a_time three hr⟩

/-- **A reader that is not waited for.** With no replicas a request gets the exclusive lock while another one reads. -/
theorem reader_not_awaited : ∃ p s, Run.Reach (step p) Run.anyAct start s ∧ ¬ Excludes s := by
  have h : (Run.exec (step ⟨0, ∅, by decide⟩) Run.anyAct [.rdlock 0, .xlock 0 7] start).map
      (fun s => ((s.locks 0).xlockBy, (s.locks 0).numRdlock)) = some (some (0, 7), 1) := by decide +kernel
  obtain ⟨s, hs, hx⟩ := map_eq_some_iff.mp h
  obtain ⟨hx, hread⟩ := Prod.mk.inj hx
  refine ⟨_, s, Run.reach_of_exec hs, fun he => ?_⟩
  have hzero := he 0 (0, 7) hx 0
  rw [hread] at hzero
  cases hzero

end Simple
end Mds
end Ceph
