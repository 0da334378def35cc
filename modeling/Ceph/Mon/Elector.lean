/-
# The monitors' elector

`Elector` of `mon/Elector.cc`: the lowest rank that a majority acks within
the timer wins. The epoch is odd during an election and even between two.
A candidate (`start`) proposes itself to everyone; a monitor that hears a
proposal of a lower rank defers to it (`defer`: it drops out and acks); a
candidate wins (`victory`) when everybody acked or, at its timer, when a
majority did.

The handlers are those of the source, as `Out`: the elector's memory
afterwards, and its effects in order. The calls of `Monitor::win_election`
and `Monitor::lose_election` are effects too, so that a run keeps a record
of them.
-/
import Mathlib.Data.Finset.Card
import Ceph.Lib.Run
import Ceph.Lib.Links
import Ceph.Lib.Handler

namespace Ceph
namespace Election

/-- `MMonElection`'s operations (`OP_NAK` is never sent). -/
inductive Op
  | propose
  | ack
  | victory
deriving DecidableEq, Repr

/-- `MMonElection`. -/
structure MMonElection where
  op : Op
  epoch : ℕ
deriving DecidableEq, Repr

/-- The elector's memory. `leaderAcked` is `none` for the source's `-1`;
`expireEvent` says whether the timer is set. -/
structure Elector where
  epoch : ℕ
  electingMe : Bool
  ackedMe : Finset ℕ
  leaderAcked : Option ℕ
  expireEvent : Bool
deriving DecidableEq

/-- The constructor's elector. -/
def Elector.new : Elector := ⟨0, false, ∅, none, false⟩

/-- What a handler does outside the elector's memory. -/
inductive Effect
  | putEpoch (e : ℕ)                          -- `store->put_int(epoch, "mon_epoch")`
  | send (dst : ℕ) (m : MMonElection)
  | winElection (epoch : ℕ) (quorum : Finset ℕ)
  | loseElection (epoch : ℕ) (leader : ℕ)
deriving DecidableEq

abbrev Handled := Out Elector Effect

/-- The ranks of `q` except `me`, in the order of a `set<int>`. -/
def others (n me : ℕ) (q : Finset ℕ) : List ℕ := (List.range n).filter fun p => p ∈ q ∧ p ≠ me

variable (n me : ℕ)

/-- `Elector::bump_epoch`. -/
def bumpEpoch (e : ℕ) (el : Elector) : Handled :=
  (Out.check el (el.epoch < e)).andThen fun el =>
    .emit { el with epoch := e, electingMe := false, ackedMe := ∅, leaderAcked := none } [.putEpoch e]

/-- `Elector::start`. -/
def start (el : Elector) : Handled :=
  (if el.epoch % 2 = 0 then bumpEpoch (el.epoch + 1) el else .ret el).andThen fun el =>
    .emit { el with electingMe := true, ackedMe := insert me el.ackedMe, expireEvent := true }
      ((others n me (Finset.range n)).map fun p => .send p ⟨.propose, el.epoch⟩)

/-- `Elector::defer`. -/
def defer (who : ℕ) (el : Elector) : Handled :=
  .emit { el with
      ackedMe := if el.electingMe then ∅ else el.ackedMe
      electingMe := false
      leaderAcked := some who
      expireEvent := true }
    [.send who ⟨.ack, el.epoch⟩]

/-- `Elector::victory`. -/
def victory (el : Elector) : Handled :=
  (Out.check { el with leaderAcked := none, electingMe := false, expireEvent := false }
      (el.epoch % 2 = 1)).andThen fun el1 =>
    (bumpEpoch (el1.epoch + 1) el1).andThen fun el2 =>
      .emit el2 (((others n me el.ackedMe).map fun p => .send p ⟨.victory, el2.epoch⟩) ++
        [.winElection el2.epoch el.ackedMe])

/-- `Elector::expire`: the timer goes off. -/
def expire (el : Elector) : Handled :=
  if el.electingMe ∧ el.ackedMe.card > n / 2 then victory n me el
  else start n me el

/-- `Elector::handle_propose`, with `quorum` the monitor's. -/
def handlePropose (quorum : Finset ℕ) (src : ℕ) (m : MMonElection) (el : Elector) : Handled :=
  (Out.check el (m.epoch % 2 = 1)).andThen fun el =>
  (if m.epoch > el.epoch then bumpEpoch m.epoch el
    else if m.epoch < el.epoch ∧ el.epoch % 2 = 0 ∧ src ∉ quorum then start n me el
    else .ret el).andThen fun el =>
  if me < src then
    -- i would win over them
    match el.leaderAcked with
    | some l => .check el (l < src)
    | none => if el.electingMe then .ret el else start n me el
  else
    -- they would win over me
    match el.leaderAcked with
    | none => defer src el
    | some l => if l > src ∨ l = src then defer src el else .ret el

/-- `Elector::handle_ack`. -/
def handleAck (src : ℕ) (m : MMonElection) (el : Elector) : Handled :=
  (Out.check el (m.epoch % 2 = 1)).andThen fun el =>
  if m.epoch > el.epoch then (bumpEpoch m.epoch el).andThen (start n me)
  else
    (Out.check el (m.epoch = el.epoch)).andThen fun el =>
    if el.electingMe then
      let el := { el with ackedMe := insert src el.ackedMe }
      if el.ackedMe.card = n then victory n me el else .ret el
    else .check el el.leaderAcked.isSome

/-- `Elector::handle_victory`. -/
def handleVictory (src : ℕ) (m : MMonElection) (el : Elector) : Handled :=
  (Out.check el (src < me)).andThen fun el =>
  (Out.check el (m.epoch % 2 = 0)).andThen fun el =>
  (Out.check el (m.epoch = el.epoch + 1)).andThen fun el =>
  (bumpEpoch m.epoch el).andThen fun el =>
    .emit { el with expireEvent := false } [.loseElection el.epoch src]

/-- `Elector::dispatch`. -/
def dispatch (quorum : Finset ℕ) (src : ℕ) (m : MMonElection) (el : Elector) : Handled :=
  match m.op with
  | .propose => handlePropose n me quorum src m el
  | .ack => if m.epoch < el.epoch then .ret el else handleAck n me src m el
  | .victory => if m.epoch < el.epoch then .ret el else handleVictory me src m el

/-- `Elector::init`, with `monEpoch` the stored epoch (0 if none is stored). -/
def init (monEpoch : ℕ) : Elector := { Elector.new with epoch := if monEpoch = 0 then 1 else monEpoch }

/-- The end of `Monitor::init`: an election, unless this is the only monitor.
`Monitor::init` does not call `Elector::init`, so a restarted elector begins
at epoch 0; with `reload` it is called first. -/
def boot (reload : Bool) (monEpoch : ℕ) : Handled :=
  let el := if reload then init monEpoch else Elector.new
  if n > 1 then (Out.check el (n ≠ 2)).andThen (start n me)
  else .emit el [.winElection 1 {me}]

/-! ### The cluster -/

/-- One monitor: its process, if it runs, the quorum of the last election it
won, and the stored epoch. A process that is not running keeps the memory it
died with, which no handler reads. -/
structure Mon where
  up : Bool
  el : Elector
  quorum : Finset ℕ
  monEpoch : ℕ
deriving DecidableEq

/-- The monitors, the messages in flight, and the record of every effect. -/
structure Cluster where
  mons : ℕ → Mon
  net : Links MMonElection
  log : List (ℕ × Effect)

/-- Before the first start. -/
def Cluster.fresh : Cluster := ⟨fun _ => ⟨false, Elector.new, ∅, 0⟩, Links.empty, []⟩

/-- What can happen. Messages may be delivered in any order, and lost. -/
inductive Event
  | boot (i : ℕ) (reload : Bool)      -- monitor `i` (re)starts
  | deliver (i j k : ℕ)               -- the `k`-th message from `i` to `j` arrives
  | lose (i j k : ℕ)                  -- it is lost
  | expire (i : ℕ)                    -- `i`'s timer goes off
  | callElection (i : ℕ)              -- `Monitor::call_election` at `i`
deriving DecidableEq

def sends (es : List Effect) : List (ℕ × MMonElection) :=
  es.filterMap fun
    | .send p m => some (p, m)
    | _ => none

/-- The stored epoch after the effects. -/
def storedEpoch (e : ℕ) (es : List Effect) : ℕ :=
  es.foldl (fun e f => match f with | .putEpoch e' => e' | _ => e) e

/-- The quorum after the effects (`Monitor::win_election` sets it). -/
def quorumAfter (q : Finset ℕ) (es : List Effect) : Finset ℕ :=
  es.foldl (fun q f => match f with | .winElection _ q' => q' | _ => q) q

/-- Monitor `i` performs the effects `es` and goes on with the memory `el`. -/
def Cluster.perform (s : Cluster) (i : ℕ) (es : List Effect) (el : Elector) (up : Bool) : Cluster where
  mons := Function.update s.mons i
    { up := up
      el := el
      quorum := quorumAfter (s.mons i).quorum es
      monEpoch := storedEpoch (s.mons i).monEpoch es }
  net := s.net.postAll i (sends es)
  log := s.log ++ es.map fun f => (i, f)

/-- A handler's result takes effect. -/
def Cluster.finish (s : Cluster) (i : ℕ) (o : Handled) : Cluster := s.perform i o.effs o.st o.ok

/-- The `k`-th message from `i` to `j` is off the link. -/
def Cluster.take (s : Cluster) (i j k : ℕ) : Cluster := { s with net := s.net.take i j k }

/-- One event. -/
def step (s : Cluster) : Event → Option Cluster
  | .boot i reload =>
    if i < n then some (s.finish i (boot n i reload (s.mons i).monEpoch)) else none
  | .deliver i j k =>
    match (s.net i j)[k]? with
    | some m =>
      if j < n ∧ (s.mons j).up then
        some ((s.take i j k).finish j (dispatch n j (s.mons j).quorum i m (s.mons j).el))
      else none
    | none => none
  | .lose i j k => some (s.take i j k)
  | .expire i =>
    if i < n ∧ (s.mons i).up ∧ (s.mons i).el.expireEvent then
      some (s.finish i (expire n i (s.mons i).el))
    else none
  | .callElection i =>
    if i < n ∧ 1 < n ∧ (s.mons i).up then some (s.finish i (start n i (s.mons i).el)) else none

end Election
end Ceph
