/-
# Proposal numbers

`get_new_proposal_number` of `mon/Paxos.cc` in its 64-bit arithmetic, with the
monitors that use it: a leader picks a number in `collect`, a peon accepts one
in `handle_collect`, and after a crash `init` reads both from the monitor's
store. Which monitor leads when, and which numbers are sent to whom, is left
open: any monitor can pick and accept at any time.

A number is a counter times 100, plus the rank. Two ranks that agree modulo
100 pick the same numbers, and the store gives back what an `int` can hold; so
numbers are unique and grow as long as the ranks differ modulo 100 and no
monitor restarts with a number of 2^31 or more.
-/
import Ceph.Lib.Run
import Ceph.Mon.MonitorStore

namespace Ceph
namespace Mon
namespace ProposalNumber

open List Option Function UInt64
open Wire (Bytes)
open MonitorStore (Files putInt getInt crashedPut ld names dotNew)

/-- `get_new_proposal_number`, but for the write: the number it returns, and the new
`last_pn`. -/
def getNewProposalNumber (whoami : ℕ) (gt lastPn : UInt64) : UInt64 :=
  let lastPn := if lastPn < gt then gt else lastPn
  (lastPn / 100 + 1) * 100 + UInt64.ofNat whoami

/-- The monitors: their ranks and directories. -/
structure Config (ι : Type) where
  whoami : ι → ℕ
  dir : ι → Bytes
  machineName : Bytes
  -- what `get_int` does where C does not say
  wild : Bytes → BitVec 32
  stack : Bytes

/-- `last_pn` and `accepted_pn` of a running monitor. -/
structure Mem where
  lastPn : UInt64
  acceptedPn : UInt64

/-- A monitor and its store. -/
structure Node where
  files : Files
  mem : Option Mem

/-- What is recorded of a run: a number is picked, above `gt`, or accepted. -/
inductive Event (ι : Type)
  | picked (i : ι) (gt pn : UInt64)
  | accepted (i : ι) (pn : UInt64)
deriving DecidableEq

/-- The monitors, and what has happened. -/
structure State (ι : Type) where
  node : ι → Node
  log : List (Event ι)

/-- What can happen to a monitor. A crash in the middle of a write leaves `k` bytes
of it. -/
inductive Act (ι : Type)
  | collect (i : ι) (oldpn : UInt64)
  | handleCollect (i : ι) (pn : UInt64)
  | crash (i : ι)
  | crashCollect (i : ι) (oldpn : UInt64) (k : ℕ)
  | crashHandleCollect (i : ι) (pn : UInt64) (k : ℕ)
  | init (i : ι)

/-- `last_pn` -/
def keyLast : Bytes := [108, 97, 115, 116, 95, 112, 110]

/-- `accepted_pn` -/
def keyAccepted : Bytes := [97, 99, 99, 101, 112, 116, 101, 100, 95, 112, 110]

variable {ι : Type} [DecidableEq ι] (c : Config ι)

/-- The argument of `get_new_proposal_number`. -/
def Mem.gt (m : Mem) (oldpn : UInt64) : UInt64 := max m.acceptedPn oldpn

/-- The number that a `collect` of monitor `i` picks. -/
def pick (i : ι) (m : Mem) (oldpn : UInt64) : UInt64 :=
  getNewProposalNumber (c.whoami i) (m.gt oldpn) m.lastPn

/-- A monitor is changed. -/
def State.set (s : State ι) (i : ι) (nd : Node) (es : List (Event ι)) : State ι :=
  { node := Function.update s.node i nd, log := s.log ++ es }

/-- A number is written, in whole or up to byte `k`. -/
def write (i : ι) (key : Bytes) (v : UInt64) (fs : Files) : Option Files :=
  putInt (c.dir i) v c.machineName (some key) fs

def crashedWrite (i : ι) (key : Bytes) (v : UInt64) (k : ℕ) (fs : Files) : Option Files :=
  crashedPut (c.dir i) c.machineName (some key) (ld v ++ [10]) k fs

def read (i : ι) (key : Bytes) (fs : Files) : Option UInt64 :=
  getInt c.wild c.stack (c.dir i) c.machineName (some key) fs

/-- One step; `none` if it is not enabled, or undefined because a name is too long. -/
def step (s : State ι) (a : Act ι) : Option (State ι) :=
  match a with
  | .collect i oldpn => (s.node i).mem.bind fun m =>
    let pn := pick c i m oldpn
    (write c i keyLast pn (s.node i).files).map fun fs =>
      s.set i ⟨fs, some ⟨pn, pn⟩⟩ [.picked i (m.gt oldpn) pn]
  | .handleCollect i pn => (s.node i).mem.bind fun m =>
    if pn > m.acceptedPn then
      (write c i keyAccepted pn (s.node i).files).map fun fs =>
        s.set i ⟨fs, some { m with acceptedPn := pn }⟩ [.accepted i pn]
    else some s
  | .crash i => (s.node i).mem.map fun _ => s.set i { s.node i with mem := none } []
  | .crashCollect i oldpn k => (s.node i).mem.bind fun m =>
    (crashedWrite c i keyLast (pick c i m oldpn) k (s.node i).files).map fun fs => s.set i ⟨fs, none⟩ []
  | .crashHandleCollect i pn k => (s.node i).mem.bind fun m =>
    if pn > m.acceptedPn then
      (crashedWrite c i keyAccepted pn k (s.node i).files).map fun fs => s.set i ⟨fs, none⟩ []
    else none
  | .init i =>
    if (s.node i).mem.isNone then
      (read c i keyLast (s.node i).files).bind fun lastPn =>
        (read c i keyAccepted (s.node i).files).map fun acceptedPn =>
          s.set i { s.node i with mem := some ⟨lastPn, acceptedPn⟩ } []
    else none

/-- `mkfs`: empty stores. -/
def init : State ι := ⟨fun _ => ⟨fun _ => none, none⟩, []⟩

/-! ### What is claimed of the numbers -/

def Event.mon : Event ι → ι
  | .picked i _ _ | .accepted i _ => i

def Event.pn : Event ι → UInt64
  | .picked _ _ pn | .accepted _ pn => pn

/-- What holds of an event and one after it: a number that is picked later by the same
monitor is greater, and one that another monitor picks is not the same. -/
def Event.Before : Event ι → Event ι → Prop
  | e, .picked j _ pn => (e.mon = j → e.pn < pn) ∧
    match e with
    | .picked i _ pn' => i ≠ j → pn' ≠ pn
    | .accepted _ _ => True
  | _, .accepted _ _ => True

/-- A number that is picked is above `gt`. -/
def Event.Above : Event ι → Prop
  | .picked _ gt pn => gt < pn
  | .accepted _ _ => True

/-- Proposal numbers are distinct and grow. -/
def Distinct (s : State ι) : Prop := s.log.Pairwise Event.Before ∧ ∀ e ∈ s.log, e.Above

/-! ### The condition -/

/-- The ranks differ modulo 100. -/
def Config.Apart : Prop := ∀ i j, c.whoami i % 100 = c.whoami j % 100 → i = j

/-- The numbers of a monitor that crashes are below 2^31. -/
def Small (m : Mem) : Prop := m.lastPn.toNat < 2 ^ 31 ∧ m.acceptedPn.toNat < 2 ^ 31

/-- The condition on a run: a number that is picked does not wrap around, and a monitor
crashes only while its numbers are small. -/
def Roomy (s : State ι) : Act ι → Prop
  | .collect i oldpn => ∀ m ∈ (s.node i).mem,
      max m.lastPn.toNat (m.gt oldpn).toNat + 100 + c.whoami i < 2 ^ 64
  | .crash i | .crashCollect i _ _ | .crashHandleCollect i _ _ => ∀ m ∈ (s.node i).mem, Small m
  | _ => True

instance (m : Mem) : Decidable (Small m) := inferInstanceAs (Decidable (_ ∧ _))

instance : ∀ (s : State ι) (a : Act ι), Decidable (Roomy c s a)
  | _, .collect _ _ | _, .crash _ | _, .crashCollect _ _ _ | _, .crashHandleCollect _ _ _ =>
    inferInstanceAs (Decidable (∀ m ∈ _, _))
  | _, .handleCollect _ _ | _, .init _ => isTrue trivial

/-! ### One number -/

/-- **A new number** is above both arguments, and its residue is that of the rank. -/
theorem getNewProposalNumber_spec {whoami : ℕ} {gt lastPn : UInt64}
    (h : max lastPn.toNat gt.toNat + 100 + whoami < 2 ^ 64) :
    gt < getNewProposalNumber whoami gt lastPn ∧ lastPn < getNewProposalNumber whoami gt lastPn ∧
      (getNewProposalNumber whoami gt lastPn).toNat % 100 = whoami % 100 := by
  set l := if lastPn < gt then gt else lastPn with hl
  have hlmax : l.toNat = max lastPn.toNat gt.toNat := by
    rw [hl]
    split_ifs with hlt
    · have := lt_iff_toNat_lt.mp hlt
      omega
    · have : ¬ lastPn.toNat < gt.toNat := fun hc => hlt (lt_iff_toNat_lt.mpr hc)
      omega
  have hval : (getNewProposalNumber whoami gt lastPn).toNat = (l.toNat / 100 + 1) * 100 + whoami := by
    have hdiv : (l / 100).toNat = l.toNat / 100 := UInt64.toNat_div l 100
    unfold getNewProposalNumber
    rw [← hl]
    simp only [UInt64.toNat_add, UInt64.toNat_mul, UInt64.toNat_ofNat', hdiv]
    simp only [show (1 : UInt64).toNat = 1 from rfl, show (100 : UInt64).toNat = 100 from rfl]
    omega
  refine ⟨lt_iff_toNat_lt.mpr ?_, lt_iff_toNat_lt.mpr ?_, ?_⟩
  · omega
  · omega
  · rw [hval]
    omega

theorem Mem.le_gt (m : Mem) (oldpn : UInt64) : m.acceptedPn ≤ m.gt oldpn := by
  show m.acceptedPn ≤ if m.acceptedPn ≤ oldpn then oldpn else m.acceptedPn
  split_ifs with h
  · exact h
  · exact UInt64.le_refl _

/-! ### What the store holds -/

/-- The file of a number. -/
def file (i : ι) (key : Bytes) : Bytes := c.dir i ++ [47] ++ c.machineName ++ ([47] ++ key)

/-- The file holds the number `v`; a file that is not there holds 0. -/
def Holds (i : ι) (key : Bytes) (fs : Files) (v : UInt64) : Prop :=
  (fs (file c i key) = none ∧ v = 0) ∨ ∃ rest, fs (file c i key) = some ((ld v ++ [10]) ++ rest)

def IsKey (key : Bytes) : Prop := key = keyLast ∨ key = keyAccepted

variable {c} {i : ι} {key key' : Bytes} {fs fs' : Files} {v w : UInt64}

omit [DecidableEq ι] in
theorem names_file {f t : Bytes} (h : names (c.dir i) c.machineName (some key) = some (f, t)) :
    f = file c i key ∧ t = file c i key ++ dotNew := by
  obtain ⟨hf, ht⟩ := MonitorStore.names_eq_some.mp h
  obtain ⟨-, hf⟩ := ite_none_right_eq_some.mp hf
  obtain ⟨-, ht⟩ := ite_none_right_eq_some.mp ht
  cases hf
  cases ht
  exact ⟨rfl, rfl⟩

omit [DecidableEq ι] in
theorem file_apart (h : IsKey key) (h' : IsKey key') :
    (key ≠ key' → file c i key ≠ file c i key') ∧ file c i key ≠ file c i key' ++ dotNew := by
  have hcancel : file c i key = file c i key' ++ dotNew → key = key' ++ dotNew := by
    unfold file
    intro he
    rw [List.append_assoc _ ([47] ++ key') dotNew] at he
    exact (append_right_inj [47]).mp (by simpa using append_cancel_left he)
  refine ⟨fun hne he => hne ?_, fun he => ?_⟩
  · exact (append_right_inj [47]).mp (append_cancel_left he)
  · have := hcancel he
    rcases h with rfl | rfl <;> rcases h' with rfl | rfl <;> exact absurd this (by decide)

omit [DecidableEq ι] in
theorem write_holds (hk : IsKey key) (h : write c i key v fs = some fs') :
    Holds c i key fs' v ∧ ∀ key', IsKey key' → key' ≠ key → ∀ w, Holds c i key' fs w → Holds c i key' fs' w := by
  obtain ⟨vs, hvs, h⟩ := bind_eq_some_iff.mp h
  obtain ⟨-, ⟨⟩⟩ := ite_none_right_eq_some.mp hvs
  rw [MonitorStore.put_eq] at h
  obtain ⟨⟨f, t⟩, hn, rfl⟩ := map_eq_some_iff.mp h
  obtain ⟨rfl, rfl⟩ := names_file hn
  refine ⟨.inr ⟨_, MonitorStore.replace_get _⟩, fun key' hk' hne w hw => ?_⟩
  have hget : MonitorStore.replace fs (file c i key) (file c i key ++ dotNew) (ld v ++ [10]) (file c i key') =
      fs (file c i key') := by
    rw [MonitorStore.replace, update_of_ne ((file_apart hk' hk).1 hne),
      update_of_ne (file_apart hk' hk).2]
  unfold Holds at hw ⊢
  rwa [hget]

omit [DecidableEq ι] in
theorem crashedWrite_holds (hk : IsKey key) {k : ℕ} (h : crashedWrite c i key v k fs = some fs')
    (hk' : IsKey key') (hw : Holds c i key' fs w) : Holds c i key' fs' w := by
  obtain ⟨f, hf, h⟩ := bind_eq_some_iff.mp h
  obtain ⟨t, ht, rfl⟩ := map_eq_some_iff.mp h
  obtain ⟨rfl, rfl⟩ := names_file (MonitorStore.names_eq_some.mpr ⟨hf, ht⟩)
  unfold Holds at hw ⊢
  rwa [update_of_ne (file_apart hk' hk).2]

omit [DecidableEq ι] in
theorem read_holds (h : Holds c i key fs w) (hw : w.toNat < 2 ^ 31) (hr : read c i key fs = some v) : v = w := by
  obtain ⟨f, hf, hr⟩ := map_eq_some_iff.mp hr
  have hf' : f = file c i key := by
    obtain ⟨-, ⟨⟩⟩ := ite_none_right_eq_some.mp hf
    rfl
  subst hf'
  rcases h with ⟨hnone, rfl⟩ | ⟨rest, hsome⟩
  · rw [hnone] at hr
    exact hr.symm
  · rw [hsome] at hr
    rw [← hr]
    exact MonitorStore.ofInt_atoi_line (.inl hw) rest

/-! ### The invariant -/

/-- The numbers that monitor `i` has picked are at most `l`, and those that it has
accepted at most `a`. -/
structure Bounded (s : State ι) (i : ι) (l a : UInt64) : Prop where
  picked : ∀ gt pn, .picked i gt pn ∈ s.log → pn ≤ l
  accepted : ∀ pn, .accepted i pn ∈ s.log → pn ≤ a

variable (c) in
/-- The store of monitor `i` holds `l` and `a`. -/
structure Stored (s : State ι) (i : ι) (l a : UInt64) : Prop extends Bounded s i l a where
  last : Holds c i keyLast (s.node i).files l
  acc : Holds c i keyAccepted (s.node i).files a

variable (c) in
/-- What the store of monitor `i` holds, against its memory. -/
def NodeInv (s : State ι) (i : ι) : Prop :=
  match (s.node i).mem with
  | none => ∃ l a, Stored c s i l a ∧ Small ⟨l, a⟩
  | some m => ∃ a ≤ m.acceptedPn, Stored c s i m.lastPn a

variable (c) in
structure Inv (s : State ι) : Prop where
  node : ∀ i, NodeInv c s i
  residue : ∀ i gt pn, .picked i gt pn ∈ s.log → pn.toNat % 100 = c.whoami i % 100
  distinct : Distinct s

variable {s s' : State ι} {nd : Node} {es : List (Event ι)}

/-- A monitor is changed: its own invariant is to be shown, and what its events say. -/
theorem Inv.set (h : Inv c s) (hes : ∀ e ∈ es, e.mon = i) (hnode : NodeInv c (s.set i nd es) i)
    (hres : ∀ gt pn, .picked i gt pn ∈ es → pn.toNat % 100 = c.whoami i % 100)
    (hd : Distinct (s.set i nd es)) : Inv c (s.set i nd es) where
  node j := by
    by_cases hj : j = i
    · rw [hj]
      exact hnode
    · have hold := h.node j
      have hsame : (s.set i nd es).node j = s.node j := update_of_ne hj _ _
      have hlog : ∀ e : Event ι, e.mon = j → e ∈ (s.set i nd es).log → e ∈ s.log := fun e he hm =>
        (mem_append.mp hm).resolve_right fun hm => hj (he.symm.trans (hes e hm))
      have hstored : ∀ l a, Stored c s j l a → Stored c (s.set i nd es) j l a := fun l a hs =>
        { picked := fun gt pn hm => hs.picked gt pn (hlog _ rfl hm)
          accepted := fun pn hm => hs.accepted pn (hlog _ rfl hm)
          last := by rw [hsame]; exact hs.last
          acc := by rw [hsame]; exact hs.acc }
      unfold NodeInv at hold ⊢
      rw [hsame]
      split
      · next hm =>
        rw [hm] at hold
        obtain ⟨l, a, hs, hsm⟩ := hold
        exact ⟨l, a, hstored l a hs, hsm⟩
      · next m hm =>
        rw [hm] at hold
        obtain ⟨a, ha, hs⟩ := hold
        exact ⟨a, ha, hstored _ a hs⟩
  residue j gt pn hm := by
    rcases mem_append.mp hm with hm | hm
    · exact h.residue j gt pn hm
    · have hj : j = i := hes _ hm
      rw [hj] at hm ⊢
      exact hres gt pn hm
  distinct := hd

theorem Distinct.silent (h : Distinct s) : Distinct (s.set i nd []) := by
  simpa [Distinct, State.set] using h

theorem mem_set_nil {e : Event ι} : e ∈ (s.set i nd []).log ↔ e ∈ s.log := by simp [State.set]

theorem Inv.down (h : Inv c s) {m : Mem} (hm : (s.node i).mem = some m) (hsm : Small m)
    (hfs : ∀ key, IsKey key → ∀ w, Holds c i key (s.node i).files w → Holds c i key fs' w) :
    Inv c (s.set i ⟨fs', none⟩ []) := by
  refine h.set (by simp) ?_ (by simp) h.distinct.silent
  have hold := h.node i
  unfold NodeInv at hold
  rw [hm] at hold
  obtain ⟨a, ha, hs⟩ := hold
  have hself : (s.set i ⟨fs', none⟩ []).node i = ⟨fs', none⟩ := update_self ..
  have hgoal : ∃ l a, Stored c (s.set i ⟨fs', none⟩ []) i l a ∧ Small ⟨l, a⟩ :=
    ⟨m.lastPn, a,
      { picked := fun gt pn hp => hs.picked gt pn (mem_set_nil.mp hp)
        accepted := fun pn hp => hs.accepted pn (mem_set_nil.mp hp)
        last := by rw [hself]; exact hfs _ (.inl rfl) _ hs.last
        acc := by rw [hself]; exact hfs _ (.inr rfl) _ hs.acc },
      hsm.1, (le_iff_toNat_le.mp ha).trans_lt hsm.2⟩
  unfold NodeInv
  rw [hself]
  exact hgoal

/-- **A number is picked.** -/
theorem Inv.collect (h : Inv c s) (hap : c.Apart) {m : Mem} (hm : (s.node i).mem = some m) {oldpn : UInt64}
    (hroom : max m.lastPn.toNat (m.gt oldpn).toNat + 100 + c.whoami i < 2 ^ 64)
    (hw : write c i keyLast (pick c i m oldpn) (s.node i).files = some fs') :
    Inv c (s.set i ⟨fs', some ⟨pick c i m oldpn, pick c i m oldpn⟩⟩
      [.picked i (m.gt oldpn) (pick c i m oldpn)]) := by
  obtain ⟨hgt, hlast, hres⟩ := getNewProposalNumber_spec hroom
  have hold := h.node i
  unfold NodeInv at hold
  rw [hm] at hold
  obtain ⟨a, ha, hs⟩ := hold
  obtain ⟨hhold, hkeep⟩ := write_holds (.inl rfl) hw
  have hacc : m.acceptedPn < pick c i m oldpn := UInt64.lt_of_le_of_lt (m.le_gt oldpn) hgt
  -- the new number is above all that this monitor has seen
  have hmine : ∀ e ∈ s.log, e.mon = i → e.pn < pick c i m oldpn := by
    intro e he hei
    cases e with
    | picked j gt pn =>
      have hj : j = i := hei
      subst hj
      exact UInt64.lt_of_le_of_lt (hs.picked gt pn he) hlast
    | accepted j pn =>
      have hj : j = i := hei
      subst hj
      exact UInt64.lt_of_le_of_lt (UInt64.le_trans (hs.accepted pn he) ha) hacc
  refine h.set (by simp [Event.mon]) ?_ (fun gt pn hp => ?_) ⟨?_, fun e he => ?_⟩
  · set nd : Node := ⟨fs', some ⟨pick c i m oldpn, pick c i m oldpn⟩⟩ with hnd
    set s' := s.set i nd [.picked i (m.gt oldpn) (pick c i m oldpn)] with hs'
    have hself : s'.node i = nd := update_self ..
    have hgoal : ∃ a' ≤ pick c i m oldpn, Stored c s' i (pick c i m oldpn) a' := by
      refine ⟨a, UInt64.le_of_lt (UInt64.lt_of_le_of_lt ha hacc), ⟨fun gt pn hp => ?_, fun pn hp => ?_⟩, ?_, ?_⟩
      · rcases mem_append.mp hp with hp | hp
        · exact UInt64.le_of_lt (hmine _ hp rfl)
        · cases mem_singleton.mp hp
          exact UInt64.le_refl _
      · rcases mem_append.mp hp with hp | hp
        · exact hs.accepted pn hp
        · cases mem_singleton.mp hp
      · rw [hself]
        exact hhold
      · rw [hself]
        exact hkeep _ (.inr rfl) (by decide) _ hs.acc
    unfold NodeInv
    rw [hself]
    exact hgoal
  · cases mem_singleton.mp hp
    exact hres
  · refine pairwise_append.mpr ⟨h.distinct.1, pairwise_singleton _ _, fun e he e' he' => ?_⟩
    cases mem_singleton.mp he'
    refine ⟨fun hei => hmine e he hei, ?_⟩
    cases e with
    | picked j gt pn =>
      rintro hne rfl
      exact hne (hap j i ((h.residue j gt _ he).symm.trans hres))
    | accepted j pn => trivial
  · rcases mem_append.mp he with he | he
    · exact h.distinct.2 e he
    · cases mem_singleton.mp he
      exact hgt

/-- A number is accepted. -/
theorem Inv.handleCollect (h : Inv c s) {m : Mem} (hm : (s.node i).mem = some m) (hgt : v > m.acceptedPn)
    (hw : write c i keyAccepted v (s.node i).files = some fs') :
    Inv c (s.set i ⟨fs', some { m with acceptedPn := v }⟩ [.accepted i v]) := by
  have hold := h.node i
  unfold NodeInv at hold
  rw [hm] at hold
  obtain ⟨a, ha, hs⟩ := hold
  obtain ⟨hhold, hkeep⟩ := write_holds (.inr rfl) hw
  refine h.set (by simp [Event.mon]) ?_ (by simp) ⟨?_, fun e he => ?_⟩
  · set nd : Node := ⟨fs', some { m with acceptedPn := v }⟩ with hnd
    set s' := s.set i nd [.accepted i v] with hs'
    have hself : s'.node i = nd := update_self ..
    have hgoal : ∃ a' ≤ v, Stored c s' i m.lastPn a' := by
      refine ⟨v, UInt64.le_refl _, ⟨fun gt pn hp => ?_, fun pn hp => ?_⟩, ?_, ?_⟩
      · rcases mem_append.mp hp with hp | hp
        · exact hs.picked gt pn hp
        · cases mem_singleton.mp hp
      · rcases mem_append.mp hp with hp | hp
        · exact UInt64.le_trans (UInt64.le_trans (hs.accepted pn hp) ha) (UInt64.le_of_lt hgt)
        · cases mem_singleton.mp hp
          exact UInt64.le_refl _
      · rw [hself]
        exact hkeep _ (.inl rfl) (by decide) _ hs.last
      · rw [hself]
        exact hhold
    unfold NodeInv
    rw [hself]
    exact hgoal
  · refine pairwise_append.mpr ⟨h.distinct.1, pairwise_singleton _ _, fun e he e' he' => ?_⟩
    cases mem_singleton.mp he'
    trivial
  · rcases mem_append.mp he with he | he
    · exact h.distinct.2 e he
    · cases mem_singleton.mp he
      trivial

theorem Inv.up (h : Inv c s) (hm : (s.node i).mem = none)
    (hl : read c i keyLast (s.node i).files = some v) (ha : read c i keyAccepted (s.node i).files = some w) :
    Inv c (s.set i { s.node i with mem := some ⟨v, w⟩ } []) := by
  refine h.set (by simp) ?_ (by simp) h.distinct.silent
  have hold := h.node i
  unfold NodeInv at hold
  rw [hm] at hold
  obtain ⟨l, a, hs, hsm⟩ := hold
  have hvl := read_holds hs.last hsm.1 hl
  have hwa := read_holds hs.acc hsm.2 ha
  subst hvl hwa
  have hself : (s.set i { s.node i with mem := some ⟨v, w⟩ } []).node i =
      { s.node i with mem := some ⟨v, w⟩ } := update_self ..
  have hgoal : ∃ a ≤ w, Stored c (s.set i { s.node i with mem := some ⟨v, w⟩ } []) i v a :=
    ⟨w, UInt64.le_refl _,
      { picked := fun gt pn hp => hs.picked gt pn (mem_set_nil.mp hp)
        accepted := fun pn hp => hs.accepted pn (mem_set_nil.mp hp)
        last := by rw [hself]; exact hs.last
        acc := by rw [hself]; exact hs.acc }⟩
  unfold NodeInv
  rw [hself]
  exact hgoal

/-! ### Every run -/

/-- **One step keeps the invariant.** -/
theorem step_inv (hap : c.Apart) {a : Act ι} (h : Inv c s) (hok : Roomy c s a) (hs : step c s a = some s') :
    Inv c s' := by
  cases a with
  | collect i oldpn =>
    obtain ⟨m, hm, hs⟩ := bind_eq_some_iff.mp hs
    obtain ⟨fs, hw, rfl⟩ := map_eq_some_iff.mp hs
    exact h.collect hap hm (hok m hm) hw
  | handleCollect i pn =>
    obtain ⟨m, hm, hs⟩ := bind_eq_some_iff.mp hs
    by_cases hgt : pn > m.acceptedPn
    · rw [if_pos hgt] at hs
      obtain ⟨fs, hw, rfl⟩ := map_eq_some_iff.mp hs
      exact h.handleCollect hm hgt hw
    · rw [if_neg hgt] at hs
      cases hs
      exact h
  | crash i =>
    obtain ⟨m, hm, rfl⟩ := map_eq_some_iff.mp hs
    exact h.down hm (hok m hm) fun _ _ _ hw => hw
  | crashCollect i oldpn k =>
    obtain ⟨m, hm, hs⟩ := bind_eq_some_iff.mp hs
    obtain ⟨fs, hw, rfl⟩ := map_eq_some_iff.mp hs
    exact h.down hm (hok m hm) fun key hk w hh => crashedWrite_holds (.inl rfl) hw hk hh
  | crashHandleCollect i pn k =>
    obtain ⟨m, hm, hs⟩ := bind_eq_some_iff.mp hs
    obtain ⟨-, hs⟩ := ite_none_right_eq_some.mp hs
    obtain ⟨fs, hw, rfl⟩ := map_eq_some_iff.mp hs
    exact h.down hm (hok m hm) fun key hk w hh => crashedWrite_holds (.inr rfl) hw hk hh
  | init i =>
    obtain ⟨hm, hs⟩ := ite_none_right_eq_some.mp hs
    obtain ⟨l, hl, hs⟩ := bind_eq_some_iff.mp hs
    obtain ⟨a, ha, rfl⟩ := map_eq_some_iff.mp hs
    exact h.up (by simpa using hm) hl ha

omit [DecidableEq ι] in
theorem init_inv : Inv c (init : State ι) where
  node i := ⟨0, 0, ⟨⟨by simp [init], by simp [init]⟩, .inl ⟨rfl, rfl⟩, .inl ⟨rfl, rfl⟩⟩, by decide, by decide⟩
  residue := by simp [init]
  distinct := ⟨by simp [init], by simp [init]⟩

/-- **Proposal numbers are distinct.** Among monitors whose ranks differ modulo 100, in
every run in which no number wraps around and no monitor crashes with a number of 2^31 or
more, different monitors pick different numbers, and a number that is picked is above its
argument and all that the monitor has picked or accepted before. -/
theorem proposal_numbers_distinct (c : Config ι) (hap : c.Apart) {s : State ι}
    (h : Run.Reach (step c) (Roomy c) init s) : Distinct s :=
  (h.inv (Inv c) init_inv fun _ _ _ hi hok hs => step_inv hap hi hok hs).distinct

/-- Two monitors with the given ranks. -/
def pair (r r' : ℕ) : Config Bool where
  whoami b := if b then r' else r
  dir b := if b then [98] else [97]
  machineName := [109]
  wild := fun _ => 0
  stack := []

/-- The numbers that were picked. -/
def pickedBy (s : State Bool) : List (Bool × UInt64) :=
  s.log.filterMap fun e => match e with
    | .picked i _ pn => some (i, pn)
    | .accepted _ _ => none

/-- Ranks 0 and 1, with a restart of the first. -/
theorem proposal_numbers_distinct_restart : ∃ s, Run.Reach (step (pair 0 1)) (Roomy (pair 0 1)) init s ∧
    pickedBy s = [(false, 100), (true, 201), (false, 300)] ∧ Distinct s := by
  have hrun : ((Run.exec (step (pair 0 1)) (Roomy (pair 0 1))
      [.init false, .init true, .collect false 0, .handleCollect true 100, .collect true 0,
        .handleCollect false 201, .crashCollect false 0 2, .init false, .collect false 0] init).map
        pickedBy) = some [(false, 100), (true, 201), (false, 300)] := by decide +kernel
  obtain ⟨s, hs, hp⟩ := map_eq_some_iff.mp hrun
  have hr := Run.reach_of_exec hs
  exact ⟨s, hr, hp, proposal_numbers_distinct (pair 0 1) (by unfold Config.Apart; decide) hr⟩

/-- Ranks 0 and 100 pick the same number. -/
theorem proposal_numbers_collide : ∃ s, Run.Reach (step (pair 0 100)) Run.anyAct init s ∧ ¬ Distinct s := by
  have hrun : ((Run.exec (step (pair 0 100)) Run.anyAct
      [.init false, .init true, .collect false 0, .collect false 0, .collect true 0] init).map
        (·.log)) = some [.picked false 0 100, .picked false 100 200, .picked true 0 200] := by decide +kernel
  obtain ⟨s, hs, hp⟩ := map_eq_some_iff.mp hrun
  refine ⟨s, Run.reach_of_exec hs, fun hd => ?_⟩
  have hpw := hd.1
  rw [hp] at hpw
  have := (pairwise_cons.mp (pairwise_cons.mp hpw).2).1 (.picked true 0 200) (by simp)
  exact this.2 (by decide) rfl

end ProposalNumber
end Mon
end Ceph
