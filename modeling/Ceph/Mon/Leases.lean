/-
# Reading under a lease

Within one epoch, members of the quorum that may read have committed the same
versions. A value is committed at a majority, when others have not even seen
its BEGIN and may still read under their lease; but the leader extends leases
only when the whole quorum has accepted, and a peon that accepts gives up its
lease. The invariant follows the link from the leader to a peon: what is on it
never moves `last_committed` while a lease may be in force (`Held`), and a
BEGIN and its ACCEPT are counted (`Pair`).

It rests on each BEGIN being handled: one that is ignored, as the peon has
accepted a higher number, leaves its lease in force.
-/
import Ceph.Mon.Epoch

namespace Ceph
namespace Paxos

open List Option Cluster

/-- `STATE_ACTIVE`, with a lease that has not been cancelled. -/
def Readable (m : Mon) : Prop := m.state = .active ∧ m.leaseExpire ≠ 0

instance (m : Mon) : Decidable (Readable m) := inferInstanceAs (Decidable (_ ∧ _))

/-! ### The link to a peon -/

/-- Neither a lease nor a BEGIN. -/
def NoLease (out : List MMonPaxos) : Prop := ∀ c ∈ out, c.op ≠ .lease ∧ c.op ≠ .begin

/-- Leases on the link are for version `K`, and no COMMIT is handled while the
peon may read: `r`, at first. After a BEGIN there are no leases. -/
def Held (K : ℕ) : Bool → List MMonPaxos → Prop
  | _, [] => True
  | r, c :: out => match c.op with
    | .lease => c.lastCommitted = K ∧ Held K true out
    | .begin => NoLease out
    | .commit => r = false ∧ Held K false out
    | .collect => Held K false out
    | _ => Held K r out

/-- The BEGINs on a link. -/
def begins (out : List MMonPaxos) : ℕ := out.countP fun c => c.op = .begin

/-- The ACCEPTs on a link. -/
def accepts (back : List MMonPaxos) : ℕ := back.countP fun c => c.op = .accept

section link

variable {K : ℕ} {r : Bool} {out : List MMonPaxos} {c : MMonPaxos}

theorem Held.mono (h : Held K true out) : Held K r out := by
  induction out generalizing r with
  | nil => trivial
  | cons c out ih =>
    unfold Held at h ⊢
    cases hop : c.op with
    | commit =>
      simp only [hop] at h
      exact absurd h.1 (by decide)
    | collect | lease | begin => simpa only [hop] using h
    | last | accept | leaseAck =>
      simp only [hop] at h ⊢
      exact ih h

theorem NoLease.held (h : NoLease out) : Held K false out := by
  induction out with
  | nil => trivial
  | cons c out ih =>
    have ih := ih fun c' hc' => h c' (mem_cons_of_mem c hc')
    obtain ⟨h1, h2⟩ := h c mem_cons_self
    unfold Held
    cases hop : c.op with
    | lease => exact absurd hop h1
    | begin => exact absurd hop h2
    | commit => exact ⟨rfl, ih⟩
    | _ => exact ih

theorem NoLease.append (h : NoLease out) {cs : List MMonPaxos} (hcs : NoLease cs) : NoLease (out ++ cs) := by
  intro c hc
  rcases mem_append.mp hc with hc | hc
  · exact h c hc
  · exact hcs c hc

theorem noLease_singleton (h : c.op ≠ .lease ∧ c.op ≠ .begin) : NoLease [c] := by
  intro c' hc'
  rw [mem_singleton.mp hc']
  exact h

theorem begins_cons (c : MMonPaxos) (out : List MMonPaxos) :
    begins (c :: out) = begins out + if c.op = .begin then 1 else 0 := by
  simp [begins, countP_cons]

theorem accepts_cons (c : MMonPaxos) (back : List MMonPaxos) :
    accepts (c :: back) = accepts back + if c.op = .accept then 1 else 0 := by
  simp [accepts, countP_cons]

theorem begins_append (out cs : List MMonPaxos) : begins (out ++ cs) = begins out + begins cs :=
  countP_append ..

theorem accepts_append (back cs : List MMonPaxos) : accepts (back ++ cs) = accepts back + accepts cs :=
  countP_append ..

theorem NoLease.begins (h : NoLease out) : begins out = 0 := by
  refine countP_eq_zero.mpr fun c hc => ?_
  simpa using (h c hc).2

/-- What may be added where there is no BEGIN. -/
theorem Held.append (h : Held K r out) (hb : begins out = 0)
    (hc : c.op = .begin ∨ (c.op = .lease ∧ c.lastCommitted = K)) : Held K r (out ++ [c]) := by
  induction out generalizing r with
  | nil =>
    rcases hc with hc | ⟨hc, hlc⟩
    · show Held K r [c]
      unfold Held
      rw [hc]
      exact nofun
    · show Held K r [c]
      unfold Held
      rw [hc]
      exact ⟨hlc, trivial⟩
  | cons x out ih =>
    rw [begins_cons] at hb
    have hb' : begins out = 0 := by omega
    rw [cons_append]
    unfold Held at h ⊢
    cases hop : x.op with
    | begin =>
      rw [if_pos hop] at hb
      omega
    | lease | commit =>
      simp only [hop] at h
      exact ⟨h.1, ih h.2 hb'⟩
    | collect | last | accept | leaseAck =>
      simp only [hop] at h
      exact ih h hb'

theorem Held.append_closed (h : Held K r out) (hb : begins out ≠ 0) (hc : c.op ≠ .lease ∧ c.op ≠ .begin) :
    Held K r (out ++ [c]) := by
  induction out generalizing r with
  | nil => exact absurd rfl hb
  | cons x out ih =>
    rw [begins_cons] at hb
    rw [cons_append]
    unfold Held at h ⊢
    cases hop : x.op with
    | begin =>
      simp only [hop] at h
      exact h.append (noLease_singleton hc)
    | lease | commit =>
      simp only [hop] at h
      exact ⟨h.1, ih h.2 (by simpa [hop] using hb)⟩
    | collect | last | accept | leaseAck =>
      simp only [hop] at h
      exact ih h (by simpa [hop] using hb)

end link

/-! ### A peon and its links -/

/-- What a peon may read, now and when it has handled its link. -/
def LeaseOk (K : ℕ) (m : Mon) (out : List MMonPaxos) : Prop :=
  (Readable m → m.lastCommitted = K) ∧ Held K (decide (Readable m)) out

/-- A peon that cannot read, and will not before the next lease. -/
def Bare (m : Mon) (out : List MMonPaxos) : Prop := NoLease out ∧ ¬ Readable m

theorem Bare.leaseOk {m : Mon} {out : List MMonPaxos} (h : Bare m out) (K : ℕ) : LeaseOk K m out := by
  refine ⟨fun hr => absurd hr h.2, ?_⟩
  rw [decide_eq_false h.2]
  exact h.1.held

/-- The round between a leader with the memory `M`, in the versions after `K`, and
the peon `a` with the memory `m`. -/
structure Pair (K : ℕ) (M : Mon) (a : ℕ) (up : Prop) (m : Mon) (out back : List MMonPaxos) : Prop where
  idle : M.state ≠ .updating → begins out + accepts back = 0
  voted : M.state = .updating → a ∈ M.accepted → begins out + accepts back = 0
  asked : M.state = .updating → begins out + accepts back ≤ 1
  waits : up → M.state = .updating → a ∉ M.accepted → begins out + accepts back = 1
  begin : ∀ c ∈ out, c.op = .begin → c.pn = M.acceptedPn ∧ c.lastCommitted = K
  accept : ∀ c ∈ back, c.op = .accept → c.pn = M.acceptedPn ∧ c.lastCommitted = K
  bare : up → (M.state = .recovering ∨ (M.state = .updating ∧ begins out = 0)) → Bare m out
  held : up → LeaseOk K m out

section pair

variable {K K' : ℕ} {M M' m : Mon} {a L : ℕ} {up : Prop} {c : MMonPaxos} {out back cs : List MMonPaxos}

/-- What a peon's handler does with a message. -/
structure Heeds (L : ℕ) (c : MMonPaxos) (m : Mon) (o : Handled) : Prop where
  held : o.ok = true → ∀ K out, LeaseOk K m (c :: out) → LeaseOk K o.st out
  bare : o.ok = true → ∀ out, Bare m (c :: out) → Bare o.st out
  begun : o.ok = true → c.op = .begin → ¬ Readable o.st ∧ accepts (sendsTo L o.effs) = 1
  replies : ∀ c' ∈ sendsTo L o.effs, c'.op = .accept → c'.pn = c.pn ∧ c'.lastCommitted = c.lastCommitted
  count : accepts (sendsTo L o.effs) ≤ if c.op = .begin then 1 else 0

/-- **The peon handles a message.** -/
theorem Pair.handled {o : Handled} (h : Pair K M a up m (c :: out) back) (hup : up) (ho : Heeds L c m o) :
    Pair K M a (o.ok = true) o.st out (back ++ sendsTo L o.effs) := by
  have hb := begins_cons c out
  have hcount := ho.count
  refine ⟨fun hs => ?_, fun hs ha => ?_, fun hs => ?_, fun hok hs ha => ?_, ?_, ?_, fun hok hs => ?_, fun hok => ?_⟩
  · have := h.idle hs
    rw [accepts_append]
    split_ifs at hb hcount <;> omega
  · have := h.voted hs ha
    rw [accepts_append]
    split_ifs at hb hcount <;> omega
  · have := h.asked hs
    rw [accepts_append]
    split_ifs at hb hcount <;> omega
  · have := h.waits hup hs ha
    rw [accepts_append]
    split_ifs at hb hcount with hop
    · rw [(ho.begun hok hop).2]
      omega
    · omega
  · exact fun c' hc' => h.begin c' (mem_cons_of_mem c hc')
  · intro c' hc' hop'
    rcases mem_append.mp hc' with hc' | hc'
    · exact h.accept c' hc' hop'
    · obtain ⟨h1, h2⟩ := ho.replies c' hc' hop'
      have hop : c.op = .begin := by
        by_contra hne
        rw [if_neg hne] at hcount
        have hpos : 0 < accepts (sendsTo L o.effs) := countP_pos_iff.mpr ⟨c', hc', by simpa using hop'⟩
        omega
      rw [h1, h2]
      exact h.begin c mem_cons_self hop
  · by_cases hop : c.op = .begin
    · have hheld := (h.held hup).2
      unfold Held at hheld
      rw [hop] at hheld
      exact ⟨hheld, (ho.begun hok hop).1⟩
    · refine ho.bare hok out (h.bare hup ?_)
      rw [if_neg hop] at hb
      rcases hs with hs | ⟨hs, h0⟩
      · exact .inl hs
      · exact .inr ⟨hs, by omega⟩
  · exact ho.held hok K out (h.held hup)

theorem no_begin (h : begins out = 0) : ∀ c ∈ out, c.op ≠ .begin := by
  intro c hc
  simpa using countP_eq_zero.mp h c hc

theorem no_accept (h : accepts back = 0) : ∀ c ∈ back, c.op ≠ .accept := by
  intro c hc
  simpa using countP_eq_zero.mp h c hc

theorem Pair.recover (h : Pair K M a up m out back) (hs : M.state = .recovering) (hs' : M'.state = .recovering)
    (hcs : NoLease cs) (K' : ℕ) : Pair K' M' a up m (out ++ cs) back := by
  have h0 := h.idle (by rw [hs]; decide)
  have hcs0 := hcs.begins
  have hne : M'.state ≠ .updating := by
    rw [hs']
    decide
  have hbare : up → Bare m (out ++ cs) := by
    intro hup
    obtain ⟨h1, h2⟩ := h.bare hup (.inl hs)
    exact ⟨h1.append hcs, h2⟩
  refine ⟨fun _ => ?_, fun hu => absurd hu hne, fun hu => absurd hu hne, fun _ hu => absurd hu hne, ?_, ?_,
    fun hup _ => hbare hup, fun hup => (hbare hup).leaseOk K'⟩
  · rw [begins_append]
    omega
  · intro c hc hop
    exact absurd hop (no_begin (by rw [begins_append]; omega) c hc)
  · intro c hc hop
    exact absurd hop (no_accept (by omega) c hc)

theorem Pair.lease (h0 : begins out + accepts back = 0) (hh : up → LeaseOk K m out) (hs' : M'.state = .active)
    (hop : c.op = .lease) (hlc : c.lastCommitted = K) : Pair K M' a up m (out ++ [c]) back := by
  have hne : M'.state ≠ .updating := by
    rw [hs']
    decide
  have hc0 : begins [c] = 0 := by simp [begins, hop]
  have h1 : begins out = 0 := by omega
  refine ⟨fun _ => ?_, fun hu => absurd hu hne, fun hu => absurd hu hne, fun _ hu => absurd hu hne, ?_, ?_,
    fun _ hs => ?_, fun hup => ⟨(hh hup).1, (hh hup).2.append h1 (.inr ⟨hop, hlc⟩)⟩⟩
  · rw [begins_append]
    omega
  · intro c' hc' hop'
    exact absurd hop' (no_begin (by rw [begins_append]; omega) c' hc')
  · intro c' hc' hop'
    exact absurd hop' (no_accept (by omega) c' hc')
  · rcases hs with hs | ⟨hs, _⟩
    · exact absurd (hs'.symm.trans hs) (by decide)
    · exact absurd hs hne

theorem Pair.ask (h0 : begins out + accepts back = 0) (hh : up → LeaseOk K m out) (haL : a ≠ L)
    (hs' : M'.state = .updating) (hacc : M'.accepted = {L}) (hop : c.op = .begin) (hpn : c.pn = M'.acceptedPn)
    (hlc : c.lastCommitted = K) : Pair K M' a up m (out ++ [c]) back := by
  have hc1 : begins [c] = 1 := by simp [begins, hop]
  have h1 : begins (out ++ [c]) = 1 := by
    rw [begins_append]
    omega
  refine ⟨fun hu => absurd hs' hu, fun _ ha => ?_, fun _ => by omega, fun _ _ _ => by omega, ?_, ?_,
    fun _ hs => ?_, fun hup => ⟨(hh hup).1, (hh hup).2.append (by omega) (.inl hop)⟩⟩
  · rw [hacc, Finset.mem_singleton] at ha
    exact absurd ha haL
  · intro c' hc' hop'
    rcases mem_append.mp hc' with hc' | hc'
    · exact absurd hop' (no_begin (by omega) c' hc')
    · rw [mem_singleton.mp hc']
      exact ⟨hpn, hlc⟩
  · intro c' hc' hop'
    exact absurd hop' (no_accept (by omega) c' hc')
  · rcases hs with hs | ⟨_, hs⟩
    · exact absurd (hs'.symm.trans hs) (by decide)
    · omega

/-- A COMMIT, in the middle of a round. -/
theorem Pair.commit (h : Pair K M a up m out back) (hs : M.state = .updating) (hs' : M'.state = .updating)
    (hacc : M'.accepted = M.accepted) (hpn : M'.acceptedPn = M.acceptedPn) (hop : c.op = .commit) :
    Pair K M' a up m (out ++ [c]) back := by
  have hc : NoLease [c] := noLease_singleton (by rw [hop]; decide)
  have hb : begins (out ++ [c]) = begins out := by
    rw [begins_append, hc.begins]
    rfl
  refine ⟨fun hu => absurd hs' hu, fun _ ha => ?_, fun _ => ?_, fun hup _ ha => ?_, ?_, ?_, fun hup h0 => ?_,
    fun hup => ?_⟩
  · rw [hb]
    exact h.voted hs (hacc ▸ ha)
  · rw [hb]
    exact h.asked hs
  · rw [hb]
    exact h.waits hup hs (hacc ▸ ha)
  · intro c' hc' hop'
    rw [hpn]
    rcases mem_append.mp hc' with hc' | hc'
    · exact h.begin c' hc' hop'
    · rw [mem_singleton.mp hc', hop] at hop'
      cases hop'
  · rw [hpn]
    exact h.accept
  · rw [hb] at h0
    rcases h0 with h0 | ⟨_, h0⟩
    · exact absurd (hs'.symm.trans h0) (by decide)
    · obtain ⟨h1, h2⟩ := h.bare hup (.inr ⟨hs, h0⟩)
      exact ⟨h1.append hc, h2⟩
  · by_cases h0 : begins out = 0
    · obtain ⟨h1, h2⟩ := h.bare hup (.inr ⟨hs, h0⟩)
      exact Bare.leaseOk ⟨h1.append hc, h2⟩ K
    · exact ⟨(h.held hup).1, (h.held hup).2.append_closed h0 (by rw [hop]; decide)⟩

theorem Pair.voter (h : Pair K M a up m out (c :: back)) (hs : M.state = .updating) (hop : c.op = .accept)
    (hs' : M'.state = .updating) (hpn : M'.acceptedPn = M.acceptedPn)
    (hacc : M'.accepted = insert a M.accepted) : Pair K M' a up m out back := by
  have hc := accepts_cons c back
  rw [if_pos hop] at hc
  have hask := h.asked hs
  refine ⟨fun hu => absurd hs' hu, fun _ _ => by omega, fun _ => by omega, fun _ _ ha => ?_, ?_, ?_,
    fun hup h0 => ?_, h.held⟩
  · rw [hacc] at ha
    exact absurd (Finset.mem_insert_self a _) ha
  · rw [hpn]
    exact h.begin
  · rw [hpn]
    exact fun c' hc' => h.accept c' (mem_cons_of_mem c hc')
  · exact h.bare hup (.inr ⟨hs, by omega⟩)

theorem Pair.other_voter (h : Pair K M a up m out back) (hs : M.state = .updating)
    (hs' : M'.state = .updating) (hpn : M'.acceptedPn = M.acceptedPn) {src : ℕ} (hne : a ≠ src)
    (hacc : M'.accepted = insert src M.accepted) : Pair K M' a up m out back := by
  have hmem : a ∈ M'.accepted ↔ a ∈ M.accepted := by
    rw [hacc, Finset.mem_insert, or_iff_right hne]
  refine ⟨fun hu => absurd hs' hu, fun _ ha => h.voted hs (hmem.mp ha), fun _ => h.asked hs,
    fun hup _ ha => h.waits hup hs fun ha' => ha (hmem.mpr ha'), ?_, ?_, fun hup h0 => ?_, h.held⟩
  · rw [hpn]
    exact h.begin
  · rw [hpn]
    exact h.accept
  · rcases h0 with h0 | h0
    · exact absurd (hs'.symm.trans h0) (by decide)
    · exact h.bare hup (.inr ⟨hs, h0.2⟩)

end pair

/-! ### The leader -/

/-- All peons, from the side of a leader with the memory `M`; `K` is the version
of the leases. -/
structure Grants (n L : ℕ) (q : Finset ℕ) (K : ℕ) (up : Set ℕ) (mem : ℕ → Mon) (out back : ℕ → List MMonPaxos)
    (M : Mon) : Prop where
  pair : ∀ a ∈ q, a ≠ L → Pair K M a (a ∈ up) (mem a) (out a) (back a)
  active : M.state = .active → M.lastCommitted = K
  updating : M.state = .updating → M.lastCommitted = if n / 2 < M.accepted.card then K + 1 else K

/-- What a piece of the leader's handlers sends. -/
structure Lends (n L : ℕ) (q : Finset ℕ) (up : Set ℕ) (mem : ℕ → Mon) (out back : ℕ → List MMonPaxos)
    (o : Handled) : Prop where
  held : ∃ K, ∀ a ∈ q, a ≠ L → a ∈ up → LeaseOk K (mem a) (out a ++ sendsTo a o.effs)
  grants : o.ok = true → ∃ K, Grants n L q K up mem (fun a => out a ++ sendsTo a o.effs) back o.st

section leader

variable {n lease L : ℕ} {q : Finset ℕ} {K : ℕ} {up : Set ℕ} {mem : ℕ → Mon} {out back : ℕ → List MMonPaxos}
  {M : Mon}

variable {o : Handled}

theorem Grants.lends {K : ℕ}
    (h : Grants n L q K up mem (fun a => out a ++ sendsTo a o.effs) back o.st) :
    Lends n L q up mem out back o :=
  ⟨⟨K, fun a ha haL hup => (h.pair a ha haL).held hup⟩, fun _ => ⟨K, h⟩⟩

theorem Grants.lends_check (h : Grants n L q K up mem out back M) (M' : Mon) :
    Lends n L q up mem out back (.check M' false) := by
  refine ⟨⟨K, fun a ha haL hup => ?_⟩, fun hok => Bool.noConfusion hok⟩
  rw [Out.check_effs, sendsTo_nil, append_nil]
  exact (h.pair a ha haL).held hup

theorem Grants.lends_nothing (h : Grants n L q K up mem out back o.st)
    (heffs : ∀ a, sendsTo a o.effs = []) : Lends n L q up mem out back o := by
  refine Grants.lends (K := K) ?_
  simp only [heffs, append_nil]
  exact h

theorem Grants.same (h : Grants n L q K up mem out back M) {M' : Mon} (hs : M'.state = M.state)
    (hacc : M'.accepted = M.accepted) (hpn : M'.acceptedPn = M.acceptedPn)
    (hlc : M'.lastCommitted = M.lastCommitted) : Grants n L q K up mem out back M' := by
  refine ⟨fun a ha haL => ?_, ?_, ?_⟩
  · obtain ⟨h1, h2, h3, h4, h5, h6, h7, h8⟩ := h.pair a ha haL
    constructor <;> (try rw [hs]) <;> (try rw [hacc]) <;> (try rw [hpn]) <;> assumption
  · rw [hs, hlc]
    exact h.active
  · rw [hs, hlc, hacc]
    exact h.updating

theorem Lends.andThen {f : Mon → Handled} (h : Lends n L q up mem out back o)
    (hf : o.ok = true → ∀ K, Grants n L q K up mem (fun a => out a ++ sendsTo a o.effs) back o.st →
      Lends n L q up mem (fun a => out a ++ sendsTo a o.effs) back (f o.st)) :
    Lends n L q up mem out back (o.andThen f) := by
  unfold Out.andThen
  split_ifs with hok
  · obtain ⟨K, hg⟩ := h.grants hok
    have h2 := hf hok K hg
    refine ⟨?_, fun hok' => ?_⟩
    · simp only [sendsTo_append, ← List.append_assoc]
      exact h2.held
    · simp only [sendsTo_append, ← List.append_assoc]
      exact h2.grants hok'
  · exact ⟨h.held, fun hok' => absurd hok' hok⟩

/-- The LEASE for `last_committed`. -/
def leaseMsg (lease now : ℕ) (m : Mon) : MMonPaxos :=
  { op := .lease, epoch := m.monEpoch, lastCommitted := m.lastCommitted, leaseExpire := now + lease }

theorem extendLease_spec (me now : ℕ) {m : Mon} (hl : m.role = .leader) (hs : m.state = .active) :
    ∃ m', extendLease n me lease now m =
        .emit m' ((others n me m.quorum).map fun p => .send p (leaseMsg lease now m)) ∧
      m'.state = .active ∧ m'.lastCommitted = m.lastCommitted ∧ m'.accepted = m.accepted ∧
      m'.acceptedPn = m.acceptedPn := by
  unfold extendLease
  rw [Out.check_andThen, if_pos (by simpa using hl), Out.check_andThen, if_pos (by simpa using hs)]
  exact ⟨_, rfl, hs, rfl, rfl, rfl⟩

theorem sendsTo_members (hq : IsQuorum n L q) {a : ℕ} (ha : a ∈ q) (haL : a ≠ L) (c : MMonPaxos) :
    sendsTo a ((others n L q).map fun p => .send p c) = [c] := by
  rw [sendsTo_bcast (nodup_others n L q), if_pos (mem_others.mpr ⟨?_, ha, haL⟩)]
  exact Finset.mem_range.mp (hq.2.1 ha)

variable {es : List Effect}

theorem sendsTo_wake (a : ℕ) (h : ∀ j M, .send j M ∉ es) : sendsTo a es = [] :=
  eq_nil_iff_forall_not_mem.mpr fun M hM => h a M (mem_sendsTo.mp hM)

/-- **Leases are extended** when no round is under way. -/
theorem lends_extendLease (hq : IsQuorum n L q) (hl : M.role = .leader) (hm : M.quorum = q)
    (hs : M.state = .active) (h0 : ∀ a ∈ q, a ≠ L → begins (out a) + accepts (back a) = 0)
    (hh : ∀ a ∈ q, a ≠ L → a ∈ up → LeaseOk M.lastCommitted (mem a) (out a)) (now : ℕ) :
    Lends n L q up mem out back (extendLease n L lease now M) := by
  obtain ⟨M', heq, hs', hlc, _⟩ := extendLease_spec (n := n) L now hl hs
  rw [heq, hm]
  refine Grants.lends (K := M.lastCommitted) ⟨fun a ha haL => ?_, fun _ => hlc, fun hu => ?_⟩
  · dsimp only [Out.emit_effs, Out.emit_st]
    rw [sendsTo_members hq ha haL]
    exact Pair.lease (h0 a ha haL) (hh a ha haL) hs' rfl rfl
  · exact absurd (hs'.symm.trans hu) (by decide)

theorem Lends.wake (h : Lends n L q up mem out back o)
    (hes : ∀ j c, .send j c ∉ es) : Lends n L q up mem out back (o.andThen fun m => .emit m es) :=
  h.andThen fun _ _ hg => Grants.lends_nothing (o := .emit o.st es) hg fun a => sendsTo_wake a hes

/-- **`begin`** when no round is under way. -/
theorem lends_begin (hn : 1 < n) (hq : IsQuorum n L q) (h1 : q.card ≠ 1) (hm : M.quorum = q)
    (h0 : ∀ a ∈ q, a ≠ L → begins (out a) + accepts (back a) = 0)
    (hh : ∀ a ∈ q, a ≠ L → a ∈ up → LeaseOk M.lastCommitted (mem a) (out a)) (v : Blob) :
    Lends n L q up mem out back (begin n L v M) := by
  rcases begin_cases n L M v with ⟨M', heq⟩ | ⟨hc, _⟩ | ⟨_, _, _, _, _, heq⟩
  · rw [heq]
    refine ⟨⟨M.lastCommitted, fun a ha haL hup => ?_⟩, fun hok => Bool.noConfusion hok⟩
    rw [Out.check_effs, sendsTo_nil, append_nil]
    exact hh a ha haL hup
  · rw [hm] at hc
    exact absurd hc h1
  · rw [heq, hm]
    refine Grants.lends (K := M.lastCommitted) ⟨fun a ha haL => ?_, fun hs => (by cases hs), fun _ => ?_⟩
    · dsimp only [Out.emit_effs]
      rw [sendsTo_putBl, sendsTo_members hq ha haL]
      exact Pair.ask (h0 a ha haL) (hh a ha haL) haL rfl rfl rfl rfl rfl
    · have hlt : ¬ n / 2 < ({L} : Finset ℕ).card := by
        rw [Finset.card_singleton]
        omega
      show M.lastCommitted = if n / 2 < ({L} : Finset ℕ).card then _ else _
      rw [if_neg hlt]

/-- **An ACCEPT**, once it is off its link. -/
theorem lends_handleAccept (hq : IsQuorum n L q) (h : Grants n L q K up mem out back M) (hl : M.role = .leader)
    (hm : M.quorum = q) {src : ℕ} (hsrc : src ∈ q ∧ src ≠ L) {c : MMonPaxos} (hop : c.op = .accept)
    {back' : ℕ → List MMonPaxos} (hback : back src = c :: back' src)
    (hother : ∀ a, a ≠ src → back' a = back a) (now : ℕ) :
    Lends n L q up mem out back' (handleAccept n L lease src c now M) := by
  have hpair := h.pair src hsrc.1 hsrc.2
  rw [hback] at hpair
  have hcount := accepts_cons c (back' src)
  rw [if_pos hop] at hcount
  -- an ACCEPT in flight is one of this round, from a peon that has not been counted
  have hs : M.state = .updating := by
    by_contra hne
    have := hpair.idle hne
    omega
  have hnew : src ∉ M.accepted := by
    intro hmem
    have := hpair.voted hs hmem
    omega
  obtain ⟨hpn, hclc⟩ := hpair.accept c mem_cons_self hop
  have hlc := h.updating hs
  have heq : handleAccept n L lease src c now M =
      (countAccept n L src M).andThen fun m => finishAccepts n L lease now m := by
    unfold handleAccept
    have hlc' : M.lastCommitted = K ∨ M.lastCommitted = K + 1 := by
      split_ifs at hlc
      · exact .inr hlc
      · exact .inl hlc
    rw [if_neg (not_not.mpr hpn), if_neg (by omega), Out.check_andThen, if_pos (by simp; omega),
      Out.check_andThen, if_pos (by simpa using hs), Out.check_andThen, if_pos (by simpa using hnew)]
  rw [heq]
  have hcard : (insert src M.accepted).card = M.accepted.card + 1 := Finset.card_insert_of_notMem hnew
  have hvote : ∀ a ∈ q, a ≠ L → Pair K { M with accepted := insert src M.accepted } a (a ∈ up) (mem a) (out a)
      (back' a) := by
    intro a ha haL
    by_cases has : a = src
    · subst has
      exact hpair.voter hs hop hs rfl rfl
    · have hp := h.pair a ha haL
      rw [← hother a has] at hp
      exact hp.other_voter hs hs rfl has rfl
  have hfirst : Lends n L q up mem out back' (countAccept n L src M) := by
    rcases countAccept_cases n L M src with ⟨hmaj, hc⟩ | ⟨hmaj, hc⟩
    · rw [hc, hm]
      refine Grants.lends (K := K) ⟨fun a ha haL => ?_, fun hs' => absurd (hs.symm.trans hs') (by decide),
        fun _ => ?_⟩
      · dsimp only [Out.emit_effs]
        rw [sendsTo_putLastCommitted, sendsTo_members hq ha haL]
        exact (hvote a ha haL).commit hs hs rfl rfl rfl
      · show M.lastCommitted + 1 = if n / 2 < (insert src M.accepted).card then K + 1 else K
        rw [if_neg (by omega)] at hlc
        rw [if_pos (by omega), hlc]
    · rw [hc]
      refine Grants.lends_nothing (K := K) ⟨hvote, fun hs' => absurd (hs.symm.trans hs') (by decide),
        fun _ => ?_⟩ fun _ => rfl
      show M.lastCommitted = if n / 2 < (insert src M.accepted).card then K + 1 else K
      rw [hlc]
      split_ifs <;> omega
  have hkept : (countAccept n L src M).st.role = .leader ∧ (countAccept n L src M).st.quorum = q ∧
      (countAccept n L src M).st.state = .updating := by
    rcases countAccept_cases n L M src with ⟨_, hc⟩ | ⟨_, hc⟩ <;> rw [hc] <;> exact ⟨hl, hm, hs⟩
  refine hfirst.andThen fun _ K hg => ?_
  set M' := (countAccept n L src M).st with hM'
  unfold finishAccepts
  split_ifs with hall
  · -- the whole quorum has accepted: nobody can read
    rw [hkept.2.1] at hall
    have hdone : ∀ a ∈ q, a ≠ L →
        begins (out a ++ sendsTo a (countAccept n L src M).effs) + accepts (back' a) = 0 := by
      intro a ha haL
      exact (hg.pair a ha haL).voted hkept.2.2 (by rw [hall]; exact ha)
    refine (lends_extendLease (M := { M' with acceptTimeoutEvent := false, state := .active }) hq hkept.1
      hkept.2.1 rfl hdone (fun a ha haL hup => ?_) now).wake send_notMem_wakeAll
    have hd := hdone a ha haL
    exact ((hg.pair a ha haL).bare hup (.inr ⟨hkept.2.2, by omega⟩)).leaseOk _
  · exact Grants.lends_nothing (o := .ret M') hg fun _ => rfl

/-- **A LAST**, while the leader recovers. -/
theorem lends_handleLast (hn : 1 < n) (hq : IsQuorum n L q) (h1 : q.card ≠ 1)
    (h : Grants n L q K up mem out back M) (hl : M.role = .leader) (hm : M.quorum = q)
    (hs : M.state = .recovering) (st : Store) (src : ℕ) (c : MMonPaxos) (now : ℕ) :
    Lends n L q up mem out back (handleLast n L lease st src c now M) := by
  have hshare : ∀ a, NoLease (sendsTo a (shared st src c M ++ learned c M)) := by
    intro a M' hM'
    have hmem := mem_sendsTo.mp hM'
    rcases mem_append.mp hmem with hmem | hmem
    · unfold shared at hmem
      split_ifs at hmem
      · cases mem_singleton.mp hmem
        exact ⟨fun h => (by cases h), fun h => (by cases h)⟩
      · cases hmem
    · unfold learned at hmem
      split_ifs at hmem
      · simp at hmem
      · cases hmem
  rcases handleLast_cases n L lease st M src c now hl with ⟨_, heq⟩ | ⟨_, heq⟩
  · obtain ⟨M', hc, hcol⟩ := collect_spec n L (st.performAll (learned c M)) (withLearned c M) c.pn hl
    rw [heq, Out.emit_andThen, hcol]
    have hq' : (withLearned c M).quorum = q := hm
    refine Grants.lends (K := K) ⟨fun a ha haL => ?_, fun hs' => ?_, fun hs' => ?_⟩
    · dsimp only [Out.emit_effs, Out.emit_st]
      rw [sendsTo_append, sendsTo_putLastPn, hq', sendsTo_members hq ha haL]
      refine (h.pair a ha haL).recover hs hc.state ((hshare a).append (noLease_singleton ?_)) K
      exact ⟨fun h => (by cases h), fun h => (by cases h)⟩
    · exact absurd (hc.state.symm.trans hs') (by decide)
    · exact absurd (hc.state.symm.trans hs') (by decide)
  · rw [heq]
    have hkept : (countLast src c (withLearned c M)).state = .recovering ∧
        (countLast src c (withLearned c M)).role = .leader ∧
        (countLast src c (withLearned c M)).quorum = q := by
      unfold countLast
      dsimp only
      split_ifs <;> exact ⟨hs, hl, hm⟩
    set M' := countLast src c (withLearned c M) with hM'
    have hfirst : Lends n L q up mem out back (.emit M' (shared st src c M ++ learned c M)) := by
      refine Grants.lends (K := K) ⟨fun a ha haL => ?_, fun hs' => ?_, fun hs' => ?_⟩
      · exact (h.pair a ha haL).recover hs hkept.1 (hshare a) K
      · exact absurd (hkept.1.symm.trans hs') (by decide)
      · exact absurd (hkept.1.symm.trans hs') (by decide)
    refine hfirst.andThen fun _ K hg => ?_
    -- when recovery is over, nobody can read
    have h0 : ∀ a ∈ q, a ≠ L → begins (out a ++ sendsTo a (shared st src c M ++ learned c M)) +
        accepts (back a) = 0 := by
      intro a ha haL
      exact (hg.pair a ha haL).idle (by rw [Out.emit_st, hkept.1]; decide)
    have hh : ∀ K, ∀ a ∈ q, a ≠ L → a ∈ up →
        LeaseOk K (mem a) (out a ++ sendsTo a (shared st src c M ++ learned c M)) := by
      intro K a ha haL hup
      exact ((hg.pair a ha haL).bare hup (.inl hkept.1)).leaseOk K
    unfold finishLasts
    dsimp only
    split_ifs
    · exact lends_begin (M := { M' with state := .active }) hn hq h1 hkept.2.2 h0 (hh _) _
    · exact (lends_extendLease (M := { M' with state := .active }) hq hkept.2.1 hkept.2.2 rfl h0 (hh _)
        now).wake (by simp)
    · exact Grants.lends_nothing (o := .ret M') hg fun _ => rfl

end leader

/-! ### The peons' handlers -/

section handlers

variable {L : ℕ} {m : Mon} {c : MMonPaxos}

variable {out : List MMonPaxos}

theorem NoLease.tail (h : NoLease (c :: out)) : NoLease out :=
  fun c' hc' => h c' (mem_cons_of_mem c hc')

variable {m : Mon}

theorem not_readable (h : m.state ≠ .active) : ¬ Readable m := fun hr => h hr.1

theorem LeaseOk.of_not_readable {K : ℕ} (hm : ¬ Readable m)
    (h : Held K false out) : LeaseOk K m out := by
  refine ⟨fun hr => absurd hr hm, ?_⟩
  rw [decide_eq_false hm]
  exact h

theorem accepts_eq_zero {cs : List MMonPaxos} (h : ∀ c ∈ cs, c.op ≠ .accept) : accepts cs = 0 :=
  countP_eq_zero.mpr fun c hc => by simpa using h c hc

theorem heeds_handleCollect (st : Store) (hp : m.role = .peon) (hop : c.op = .collect) :
    Heeds L c m (handleCollect st L c m) := by
  have hstate : (handleCollect st L c m).st.state ≠ .active := by
    rcases handleCollect_cases st m L c hp with h | ⟨_, h⟩ | ⟨_, h⟩ <;> rw [h] <;> exact fun hs => (by cases hs)
  have hsends : ∀ c' ∈ sendsTo L (handleCollect st L c m).effs, c'.op ≠ .accept := by
    intro c' hc'
    have hmem := mem_sendsTo.mp hc'
    rcases handleCollect_cases st m L c hp with h | ⟨_, h⟩ | ⟨_, h⟩ <;> rw [h] at hmem
    · cases hmem
    · simp only [Out.emit_effs, mem_cons, reduceCtorEq, Effect.send.injEq, not_mem_nil, or_false,
        false_or] at hmem
      rw [hmem.2]
      exact fun h => (by cases h)
    · cases mem_singleton.mp hmem
      exact fun h => (by cases h)
  refine ⟨fun _ K out hh => ?_, fun _ out hb => ⟨hb.1.tail, not_readable hstate⟩, fun _ hb => ?_,
    fun c' hc' hacc => absurd hacc (hsends c' hc'), ?_⟩
  · have hheld := hh.2
    unfold Held at hheld
    rw [hop] at hheld
    exact .of_not_readable (not_readable hstate) hheld
  · rw [hop] at hb
    cases hb
  · rw [accepts_eq_zero hsends]
    exact Nat.zero_le _

/-- A BEGIN that is not ignored. -/
theorem heeds_handleBegin (hop : c.op = .begin) (hpn : m.acceptedPn ≤ c.pn) :
    Heeds L c m (handleBegin L c m) := by
  have hcases : handleBegin L c m = .check m false ∨ (c.pn = m.acceptedPn ∧ c.lastCommitted = m.lastCommitted ∧
      handleBegin L c m = .emit { m with state := .updating, leaseExpire := 0 }
        [.putBl (m.lastCommitted + 1) (c.value (m.lastCommitted + 1)) (some m.acceptedPn),
          .send L { op := .accept, epoch := m.monEpoch, pn := m.acceptedPn,
                    lastCommitted := m.lastCommitted }]) := by
    unfold handleBegin
    rw [if_neg (not_lt.mpr hpn)]
    simp only [Out.check_andThen, decide_eq_true_eq]
    split_ifs with h1 h2
    · exact .inr ⟨h1, h2, rfl⟩
    · exact .inl rfl
    · exact .inl rfl
  rcases hcases with h | ⟨h1, h2, h⟩
  · rw [h]
    exact ⟨fun hok => Bool.noConfusion hok, fun hok => Bool.noConfusion hok, fun hok => Bool.noConfusion hok,
      nofun, Nat.zero_le _⟩
  · rw [h]
    have hnot : ¬ Readable { m with state := .updating, leaseExpire := 0 } :=
      not_readable fun hs => (by cases hs)
    have hsends : sendsTo L (Out.emit { m with state := .updating, leaseExpire := 0 }
        [.putBl (m.lastCommitted + 1) (c.value (m.lastCommitted + 1)) (some m.acceptedPn),
          .send L { op := .accept, epoch := m.monEpoch, pn := m.acceptedPn,
                    lastCommitted := m.lastCommitted }] : Handled).effs =
        [{ op := .accept, epoch := m.monEpoch, pn := m.acceptedPn, lastCommitted := m.lastCommitted }] := by
      rw [Out.emit_effs, sendsTo_putBl, sendsTo_send, if_pos rfl]
      rfl
    refine ⟨fun _ K out hh => ?_, fun _ out hb => ?_, fun _ _ => ⟨hnot, ?_⟩, fun c' hc' _ => ?_, ?_⟩
    · have hheld := hh.2
      unfold Held at hheld
      rw [hop] at hheld
      exact .of_not_readable hnot hheld.held
    · exact ⟨hb.1.tail, hnot⟩
    · rw [hsends]
      rfl
    · rw [hsends] at hc'
      rw [mem_singleton.mp hc']
      exact ⟨h1.symm, h2.symm⟩
    · rw [hsends, if_pos hop]
      exact le_rfl

theorem heeds_handleCommit (hp : m.role = .peon) (hop : c.op = .commit) : Heeds L c m (handleCommit c m) := by
  obtain ⟨ws, _, _, hst, heffs⟩ := handleCommit_spec m c hp
  have hsends : sendsTo L (handleCommit c m).effs = [] := by
    refine sendsTo_wake L fun j M hM => ?_
    rcases heffs with ⟨h, _⟩ | h <;> rw [h] at hM <;> simp at hM
  have hread : Readable (handleCommit c m).st ↔ Readable m := by
    rw [hst]
    exact .rfl
  refine ⟨fun _ K out hh => ?_, fun _ out hb => ⟨hb.1.tail, fun hr => hb.2 (hread.mp hr)⟩, fun _ hb => ?_,
    fun c' hc' => ?_, ?_⟩
  · have hheld := hh.2
    unfold Held at hheld
    rw [hop] at hheld
    have hnot : ¬ Readable m := of_decide_eq_false hheld.1
    exact .of_not_readable (fun hr => hnot (hread.mp hr)) hheld.2
  · rw [hop] at hb
    cases hb
  · rw [hsends] at hc'
    cases hc'
  · rw [hsends]
    exact Nat.zero_le _

theorem heeds_handleLease (now : ℕ) (hop : c.op = .lease) : Heeds L c m (handleLease L c now m) := by
  obtain ⟨hquiet, _⟩ := quiet_handleLease L now c m
  have hsends : ∀ c' ∈ sendsTo L (handleLease L c now m).effs, c'.op ≠ .accept := by
    intro c' hc' hacc
    rcases hquiet _ (mem_sendsTo.mp hc') with h | h <;> rw [h] at hacc <;> cases hacc
  have hcases : (handleLease L c now m).st = m ∨
      (handleLease L c now m).st.lastCommitted = c.lastCommitted := by
    unfold handleLease
    split_ifs with h
    · exact .inl rfl
    · rw [not_or, not_not, not_not] at h
      exact .inr h.2
  refine ⟨fun _ K out hh => ?_, fun _ out hb => absurd hop (hb.1 c mem_cons_self).1, fun _ hb => ?_,
    fun c' hc' hacc => absurd hacc (hsends c' hc'), ?_⟩
  · have hheld := hh.2
    unfold Held at hheld
    rw [hop] at hheld
    refine ⟨fun hr => ?_, hheld.2.mono⟩
    rcases hcases with h | h
    · rw [h] at hr ⊢
      exact hh.1 hr
    · rw [h]
      exact hheld.1
  · rw [hop] at hb
    cases hb
  · rw [accepts_eq_zero hsends]
    exact Nat.zero_le _

end handlers

/-! ### Runs -/

section runs

variable {n lease L e i : ℕ} {q : Finset ℕ} {s s' s₁ : Cluster} {ev : Event} {o : Handled}

/-- The actions of an epoch in which the leader handles LASTs only while it
recovers, and no BEGIN is ignored. -/
def Regular (n L e : ℕ) (q : Finset ℕ) (s : Cluster) (a : Act) : Prop :=
  InEpoch n L q a ∧ match a with
    | .run (.deliver src dst _) => ∀ c ∈ (s.net src dst).head?, c.epoch = e →
        (c.op = .last → (s.node dst).mon.state = .recovering) ∧
        (c.op = .begin → (s.node dst).mon.acceptedPn ≤ c.pn)
    | _ => True

def Cluster.mem (s : Cluster) (a : ℕ) : Mon := (s.node a).mon

/-- The invariant. -/
structure Leased (n L e : ℕ) (q : Finset ℕ) (s : Cluster) : Prop where
  held : ∃ K, ∀ a ∈ q, a ≠ L → (s.node a).up = true → LeaseOk K (s.mem a) (current e (s.net L a))
  grants : (s.node L).up = true → ∃ K, Grants n L q K {a | (s.node a).up = true} s.mem
    (fun a => current e (s.net L a)) (fun a => current e (s.net a L)) (s.mem L)

variable {c : MMonPaxos} {ms : List MMonPaxos}

/-- **A peon's turn.** -/
theorem leased_peon (ho : InOffice n L e q s) (h : Leased n L e q s) {a now : ℕ}
    (ht : Turn n lease L e q s (.deliver L a now) a (s.received L a) o)
    (ha : a ∈ q) (haL : a ≠ L) (hup : (s.node a).up = true) (hnet : s.net L a = c :: ms) (hc : c.epoch = e)
    (hh : Heeds L c (s.node a).mon o) :
    Leased n L e q (((s.received L a).performAll a o.effs).become a o.st o.ok) := by
  obtain ⟨hother, hself⟩ := ht.nodes
  obtain ⟨hout, hback, hbs⟩ := ht.peon_net ho haL hnet
  set s' := ((s.received L a).performAll a o.effs).become a o.st o.ok
  replace hself : (s'.node a).up = o.ok ∧ s'.mem a = o.st := hself
  have hcons : current e (s.net L a) = c :: current e ms := by rw [hnet, current_cons hc]
  have hmem : ∀ b, b ≠ a → s'.mem b = s.mem b := fun b hb => by rw [mem, hother b hb, mem]
  refine ⟨?_, fun hLup => ?_⟩
  · obtain ⟨K, hK⟩ := h.held
    refine ⟨K, fun b hb hbL hbup => ?_⟩
    by_cases hba : b = a
    · subst hba
      rw [hself.1] at hbup
      have hok := hK b hb hbL hup
      rw [hcons] at hok
      rw [hout, hself.2]
      exact hh.held hbup K _ hok
    · rw [hother b hba] at hbup
      rw [(hbs b hba).1, hmem b hba]
      exact hK b hb hbL hbup
  · rw [hother L (Ne.symm haL)] at hLup
    obtain ⟨K, hK⟩ := h.grants hLup
    refine ⟨K, fun b hb hbL => ?_, ?_, ?_⟩
    · rw [hmem L (Ne.symm haL)]
      have hp := hK.pair b hb hbL
      by_cases hba : b = a
      · subst hba
        rw [hcons] at hp
        have hp' := hp.handled hup hh
        rw [hout, hback, hself.2]
        have hiff : (b ∈ {a | (s'.node a).up = true}) = (o.ok = true) := by
          rw [← hself.1]
          rfl
        rw [hiff]
        exact hp'
      · have hiff : (b ∈ {a | (s'.node a).up = true}) = (b ∈ {a | (s.node a).up = true}) := by
          show ((s'.node b).up = true) = ((s.node b).up = true)
          rw [hother b hba]
        rw [hiff, (hbs b hba).1, (hbs b hba).2, hmem b hba]
        exact hp
    · rw [hmem L (Ne.symm haL)]
      exact hK.active
    · rw [hmem L (Ne.symm haL)]
      exact hK.updating

/-- **The leader's turn.** -/
theorem leased_leader (ho : InOffice n L e q s) (ht : Turn n lease L e q s ev L s₁ o)
    (hlends : Lends n L q {a | (s.node a).up = true} s.mem (fun a => current e (s.net L a))
      (fun a => current e (s₁.net a L)) o)
    (hout : ∀ a, a ≠ L → current e (s₁.net L a) = current e (s.net L a)) :
    Leased n L e q ((s₁.performAll L o.effs).become L o.st o.ok) := by
  obtain ⟨hother, hself⟩ := ht.nodes
  have hnet : ∀ a, a ≠ L → _ := fun a ha => ht.leader_net ho ha
  set s' := (s₁.performAll L o.effs).become L o.st o.ok
  replace hself : (s'.node L).up = o.ok ∧ s'.mem L = o.st := hself
  have hmem : ∀ b, b ≠ L → s'.mem b = s.mem b := fun b hb => by rw [mem, hother b hb, mem]
  refine ⟨?_, fun hup => ?_⟩
  · obtain ⟨K, hK⟩ := hlends.held
    refine ⟨K, fun a ha haL haup => ?_⟩
    rw [hother a haL] at haup
    rw [(hnet a haL).1, hout a haL, hmem a haL]
    exact hK a ha haL haup
  · rw [hself.1] at hup
    obtain ⟨K, hK⟩ := hlends.grants hup
    rw [hself.2]
    refine ⟨K, fun a ha haL => ?_, hK.active, hK.updating⟩
    have hiff : (a ∈ {a | (s'.node a).up = true}) = (a ∈ {a | (s.node a).up = true}) := by
      show ((s'.node a).up = true) = ((s.node a).up = true)
      rw [hother a haL]
    rw [hiff, (hnet a haL).1, hout a haL, (hnet a haL).2, hmem a haL]
    exact hK.pair a ha haL

variable {K : ℕ} {up : Set ℕ} {mem : ℕ → Mon}

theorem Grants.replied {out : ℕ → List MMonPaxos} {M : Mon} {src : ℕ}
        (h : Grants n L q K up mem out (fun a => current e (s.net a L)) M) (hnet : s.net src L = c :: ms)
    (hc : c.epoch = e) (hop : c.op ≠ .accept) :
    Grants n L q K up mem out (fun a => current e ((s.received src L).net a L)) M := by
  refine ⟨fun a ha haL => ?_, h.active, h.updating⟩
  have hp := h.pair a ha haL
  by_cases has : a = src
  · subst has
    rw [current_received_self hnet]
    rw [hnet, current_cons hc] at hp
    have hsame : accepts (c :: current e ms) = accepts (current e ms) := by
      rw [accepts_cons, if_neg hop]
      rfl
    obtain ⟨h1, h2, h3, h4, h5, h6, h7, h8⟩ := hp
    rw [hsame] at h1 h2 h3 h4
    exact ⟨h1, h2, h3, h4, h5, fun c' hc' => h6 c' (mem_cons_of_mem c hc'), h7, h8⟩
  · rw [current_received_ne (fun h => has h.1)]
    exact hp

theorem SameLead.grants {out back : ℕ → List MMonPaxos} {M M' : Mon}
    (h : Grants n L q K up mem out back M) (hs : SameLead M M') (hc : Calm M M') :
    Grants n L q K up mem out back M' :=
  h.same hs.state.symm hs.accepted.symm hc.acceptedPn hc.lastCommitted

/-- **Every turn keeps it.** -/
theorem leased_turn (hn : 1 < n) (h1 : q.card ≠ 1) (ho : InOffice n L e q s) (h : Leased n L e q s)
    (hup : (s.node i).up = true) (ht : Turn n lease L e q s ev i s₁ o) (hreg : Regular n L e q s (.run ev)) :
    Leased n L e q ((s₁.performAll i o.effs).become i o.st o.ok) := by
  have hq := ho.quorum
  obtain ⟨hoffice, hquorum⟩ := ho.leader
  have ht' := ht
  cases ht with
  | old a b now c ms hb hnet hc =>
    obtain ⟨hnode, hcur⟩ := received_old hup hnet hc
    have hsame : ∀ t : Cluster, t.node = s.node → (∀ x y, current e (t.net x y) = current e (s.net x y)) →
        Leased n L e q t := by
      intro t hn' hc'
      have hmem : t.mem = s.mem := by
        funext x
        rw [mem, hn', mem]
      refine ⟨?_, ?_⟩
      · simp only [hn', hc', hmem]
        exact h.held
      · simp only [hn', hc', hmem]
        exact h.grants
    exact hsame _ hnode hcur
  | collect a now c ms ha haL hnet hc hop =>
    exact leased_peon ho h ht' ha haL hup hnet hc (heeds_handleCollect _ (ho.peon i ha haL).role hop)
  | begin a now c ms ha haL hnet hc hop =>
    have hpn := (hreg.2 c (by rw [hnet]; rfl) hc).2 hop
    exact leased_peon ho h ht' ha haL hup hnet hc (heeds_handleBegin hop hpn)
  | commit a now c ms ha haL hnet hc hop =>
    exact leased_peon ho h ht' ha haL hup hnet hc (heeds_handleCommit (ho.peon i ha haL).role hop)
  | lease a now c ms ha haL hnet hc hop =>
    exact leased_peon ho h ht' ha haL hup hnet hc (heeds_handleLease now hop)
  | last a now c ms ha haL hnet hc hop =>
    have hs := (hreg.2 c (by rw [hnet]; rfl) hc).1 hop
    obtain ⟨K, hK⟩ := h.grants hup
    have hK' := hK.replied hnet hc (by rw [hop]; decide)
    exact leased_leader ho ht' (lends_handleLast hn hq h1 hK' hoffice.role hquorum hs _ a c now)
      fun b hb => current_received_ne fun h => hb h.2
  | accept a now c ms ha haL hnet hc hop =>
    obtain ⟨K, hK⟩ := h.grants hup
    refine leased_leader ho ht' ?_ fun b hb => current_received_ne fun h => hb h.2
    refine lends_handleAccept hq hK hoffice.role hquorum ⟨ha, haL⟩ hop ?_ (fun b hb => ?_) now
    · rw [current_received_self hnet, hnet, current_cons hc]
    · rw [current_received_ne (fun h => hb h.1)]
  | leaseAck a now c ms ha haL hnet hc hop =>
    obtain ⟨K, hK⟩ := h.grants hup
    have hK' := hK.replied hnet hc (by rw [hop]; decide)
    obtain ⟨_, hcalm⟩ := quiet_handleLeaseAck a (s.node L).mon
    have hrole : (handleLeaseAck a (s.node L).mon).st.role = .leader :=
      ((ht'.official ho).1 rfl).role.trans hoffice.role
    have heffs : (handleLeaseAck a (s.node L).mon).effs = [] := by
      unfold handleLeaseAck
      dsimp only
      split_ifs <;> rfl
    exact leased_leader ho ht'
      (((hcalm.lead hrole).grants hK' hcalm).lends_nothing fun a => by rw [heffs, sendsTo_nil])
      fun b hb => current_received_ne fun h => hb h.2
  | propose v hact =>
    obtain ⟨K, hK⟩ := h.grants hup
    have hlc := hK.active hact
    have hne : (s.mem L).state ≠ .updating := by
      rw [mem, hact]
      decide
    refine leased_leader ho ht' ?_ fun b hb => rfl
    refine lends_begin (M := cancelEvents (s.node L).mon) hn hq h1 hquorum
      (fun a ha haL => (hK.pair a ha haL).idle hne) (fun a ha haL haup => ?_) v
    have hheld := (hK.pair a ha haL).held haup
    rw [← hlc] at hheld
    exact hheld
  | busy v =>
    obtain ⟨K, hK⟩ := h.grants hup
    exact leased_leader ho ht' (hK.lends_check _) fun b hb => rfl
  | renew now =>
    obtain ⟨K, hK⟩ := h.grants hup
    refine leased_leader ho ht' ?_ fun b hb => rfl
    by_cases hact : (s.node L).mon.state = .active
    · have hlc := hK.active hact
      have hne : (s.mem L).state ≠ .updating := by
        rw [mem, hact]
        decide
      refine lends_extendLease (M := { (s.node L).mon with leaseRenewEvent := false }) hq hoffice.role
        hquorum hact (fun a ha haL => (hK.pair a ha haL).idle hne) (fun a ha haL haup => ?_) now
      have hheld := (hK.pair a ha haL).held haup
      rw [← hlc] at hheld
      exact hheld
    · have hfail : leaseRenewTimeout n L lease now (s.node L).mon =
          .check { (s.node L).mon with leaseRenewEvent := false } false := by
        unfold leaseRenewTimeout extendLease
        rw [Out.check_andThen, if_pos (by simpa using hoffice.role), Out.check_andThen,
          if_neg (by simpa using hact)]
      rw [hfail]
      exact hK.lends_check _

/-- When the leader has won, nobody can read. -/
theorem leased_won (h : Gathered n L e q s) (h1 : q.card ≠ 1)
    (hs : step n lease s (.run (.win L e q)) = some s') : Leased n L e q s' := by
  have hq := h.quorum
  have hLn : L < n := Finset.mem_range.mp (hq.2.1 hq.1)
  obtain ⟨_, ⟨h1', _⟩ | ⟨_, rfl⟩⟩ := won_cases h hs
  · exact absurd h1' h1
  obtain ⟨m', hc, heq⟩ := collect_spec n L (s.node L).store (elected L e q (s.node L).mon) 0 rfl
  set c := collectMsg (elected L e q (s.node L).mon) (pickedPn L 0 (elected L e q (s.node L).mon)) with hcm
  rw [heq]
  set s' := (s.performAll L (Out.emit m' (.putLastPn (pickedPn L 0 (elected L e q (s.node L).mon)) ::
    (others n L (elected L e q (s.node L).mon).quorum).map fun d => .send d c) : Handled).effs).become L
    (Out.emit m' (.putLastPn (pickedPn L 0 (elected L e q (s.node L).mon)) ::
      (others n L (elected L e q (s.node L).mon).quorum).map fun d => .send d c) : Handled).st true with hs'
  have hnet : ∀ a ∈ q, a ≠ L → current e (s'.net L a) = [c] ∧ current e (s'.net a L) = [] := by
    intro a ha haL
    have han : a < n := Finset.mem_range.mp (hq.2.1 ha)
    rw [hs', become_net, performAll_net, if_pos rfl, performAll_net, if_neg haL,
      current_append, current_old (h.old L hLn a han), current_old (h.old a han L hLn), Out.emit_effs,
      sendsTo_putLastPn]
    have hq' : (elected L e q (s.node L).mon).quorum = q := rfl
    rw [hq', sendsTo_members hq ha haL]
    exact ⟨current_cons rfl [], rfl⟩
  have hbare : ∀ a ∈ q, a ≠ L → Bare (s'.mem a) [c] := by
    intro a ha haL
    refine ⟨noLease_singleton ⟨fun h => (by cases h), fun h => (by cases h)⟩, ?_⟩
    obtain ⟨m, hm⟩ := h.peon a ha haL
    rw [mem, hs', become_node_ne L _ haL, performAll_node_ne L s _ haL, hm]
    exact not_readable fun hr => (by cases hr)
  have hmon : s'.mem L = m' := by
    rw [mem, hs', become_node]
    rfl
  have hrec : (s'.mem L).state = .recovering := by
    rw [hmon]
    exact hc.state
  refine ⟨⟨0, fun a ha haL _ => ?_⟩, fun _ => ⟨0, fun a ha haL => ?_, ?_, ?_⟩⟩
  · rw [(hnet a ha haL).1]
    exact (hbare a ha haL).leaseOk 0
  · have hne : (s'.mem L).state ≠ .updating := by
      rw [hrec]
      decide
    have hbe := hbare a ha haL
    rw [(hnet a ha haL).1, (hnet a ha haL).2]
    refine ⟨fun _ => ?_, fun hu => absurd hu hne, fun hu => absurd hu hne, fun _ hu => absurd hu hne, ?_, ?_,
      fun _ _ => hbe, fun _ => hbe.leaseOk 0⟩
    · rw [hbe.1.begins]
      rfl
    · exact fun c' hc' hop => absurd hop (hbe.1 c' hc').2
    · exact nofun
  · exact fun ha => absurd (hrec.symm.trans ha) (by decide)
  · exact fun hu => absurd (hrec.symm.trans hu) (by decide)

/-- **Every step keeps it.** -/
theorem leased_step (hn : 1 < n) (h1 : q.card ≠ 1) {a : Act} (h : InOffice n L e q s ∧ Leased n L e q s)
    (hreg : Regular n L e q s a) (hs : step n lease s a = some s') :
    InOffice n L e q s' ∧ Leased n L e q s' := by
  obtain ⟨ev, i, s₁, o, rfl, hup, ht, rfl⟩ := turn_of_step h.1 hreg.1 hs
  exact ⟨inOffice_turn h.1 ht, leased_turn hn h1 h.1 h.2 hup ht hreg⟩

/-- **Lease reads are consistent inside an epoch.** In every regular run of an
epoch, two members of the quorum that may read have committed the same
versions. -/
theorem lease_reads_agree (n lease : ℕ) {L e : ℕ} {q : Finset ℕ} {s₀ s₁ s : Cluster}
    (h₀ : Gathered n L e q s₀) (hwin : step n lease s₀ (.run (.win L e q)) = some s₁)
    (h : Run.Reach (step n lease) (Regular n L e q) s₁ s) {a b : ℕ} (ha : a ∈ q) (hb : b ∈ q)
    (haup : (s.node a).up = true) (hbup : (s.node b).up = true) (hra : Readable (s.node a).mon)
    (hrb : Readable (s.node b).mon) : (s.node a).mon.lastCommitted = (s.node b).mon.lastCommitted := by
  have hq := h₀.quorum
  by_cases h1 : q.card = 1
  · obtain ⟨x, rfl⟩ := Finset.card_eq_one.mp h1
    rw [Finset.mem_singleton.mp ha, Finset.mem_singleton.mp hb]
  have hn : 1 < n := by
    have hle := Finset.card_le_card hq.2.1
    have hpos := Finset.card_pos.mpr ⟨L, hq.1⟩
    rw [Finset.card_range] at hle
    omega
  obtain ⟨_, hleased⟩ := h.inv (fun s => InOffice n L e q s ∧ Leased n L e q s)
    ⟨inOffice_won h₀ hwin, leased_won h₀ h1 hwin⟩ fun _ _ _ hP hreg hs => leased_step hn h1 hP hreg hs
  by_cases hL : (s.node L).up = true ∧ Readable (s.node L).mon
  · obtain ⟨K, hK⟩ := hleased.grants hL.1
    have hlc : (s.node L).mon.lastCommitted = K := hK.active hL.2.1
    have hmember : ∀ x ∈ q, (s.node x).up = true → Readable (s.node x).mon →
        (s.node x).mon.lastCommitted = K := by
      intro x hx hup hr
      by_cases hxL : x = L
      · rw [hxL]
        exact hlc
      · exact ((hK.pair x hx hxL).held hup).1 hr
    rw [hmember a ha haup hra, hmember b hb hbup hrb]
  · obtain ⟨K, hK⟩ := hleased.held
    have hmember : ∀ x ∈ q, (s.node x).up = true → Readable (s.node x).mon →
        (s.node x).mon.lastCommitted = K := by
      intro x hx hup hr
      have hxL : x ≠ L := by
        rintro rfl
        exact hL ⟨hup, hr⟩
      exact (hK x hx hxL hup).1 hr
    rw [hmember a ha haup hra, hmember b hb hbup hrb]

instance (n L e : ℕ) (q : Finset ℕ) (s : Cluster) : ∀ a : Act, Decidable (Regular n L e q s a)
  | .run (.deliver _ _ _) => inferInstanceAs (Decidable (_ ∧ ∀ _ ∈ _, _ → _))
  | .run (.win _ _ _) | .run (.lose _ _ _) | .run (.propose _ _) | .run (.callElection _)
  | .run (.leaseRenew _ _) | .cut _ _ | .restart _ | .drop _ _ _ => inferInstanceAs (Decidable (_ ∧ True))

/-- The first version is proposed and committed, and both peons get a lease. -/
def firstLease : List Act :=
  [.run (.deliver 0 1 0), .run (.deliver 0 2 0), .run (.deliver 1 0 0), .run (.deliver 2 0 0),
    .run (.propose 0 [1]), .run (.deliver 0 1 0), .run (.deliver 0 2 0), .run (.deliver 0 1 0),
    .run (.deliver 0 2 0), .run (.deliver 1 0 0), .run (.deliver 1 0 0), .run (.deliver 2 0 0),
    .run (.deliver 2 0 0), .run (.deliver 0 1 0), .run (.deliver 0 1 0), .run (.deliver 0 2 0),
    .run (.deliver 0 2 0)]

theorem lease_reads_agree_first : ∃ s₀ s₁ s, Gathered 3 0 2 {0, 1, 2} s₀ ∧
    step 3 5 s₀ (.run (.win 0 2 {0, 1, 2})) = some s₁ ∧
    Run.Reach (step 3 5) (Regular 3 0 2 {0, 1, 2}) s₁ s ∧ Readable (s.node 1).mon ∧ Readable (s.node 2).mon ∧
    (s.node 1).mon.lastCommitted = 1 ∧ (s.node 1).mon.lastCommitted = (s.node 2).mon.lastCommitted := by
  have hrun : ((Run.exec (step 3 5) Run.anyAct [.restart 0, .restart 1, .restart 2, .run (.lose 1 2 0),
        .run (.lose 2 2 0)] fresh).bind fun s₀ : Cluster =>
      (step 3 5 s₀ (.run (.win 0 2 {0, 1, 2}))).bind fun s₁ : Cluster =>
      (Run.exec (step 3 5) (Regular 3 0 2 {0, 1, 2}) firstLease s₁).map fun s : Cluster =>
      decide (Lost 3 0 2 {0, 1, 2} s₀ ∧ (s.node 1).up = true ∧ (s.node 2).up = true ∧
        Readable (s.node 1).mon ∧ Readable (s.node 2).mon ∧ (s.node 1).mon.lastCommitted = 1)) = some true := by
    decide +kernel
  obtain ⟨s₀, _, h⟩ := bind_eq_some_iff.mp hrun
  obtain ⟨s₁, hwin, h⟩ := bind_eq_some_iff.mp h
  obtain ⟨s, hs, hd⟩ := map_eq_some_iff.mp h
  obtain ⟨hlost, hup1, hup2, hr1, hr2, hlc⟩ := of_decide_eq_true hd
  have hr := Run.reach_of_exec hs
  exact ⟨s₀, s₁, s, hlost.gathered, hwin, hr, hr1, hr2, hlc,
    lease_reads_agree 3 5 hlost.gathered hwin hr (by decide) (by decide) hup1 hup2 hr1 hr2⟩

/-- The actions after recovery: no COLLECT and no LAST is handled. -/
def AfterRecovery (n L : ℕ) (q : Finset ℕ) (s : Cluster) (a : Act) : Prop :=
  InEpoch n L q a ∧ match a with
    | .run (.deliver src dst _) => ∀ c ∈ (s.net src dst).head?, c.op ≠ .collect ∧ c.op ≠ .last
    | _ => True

instance (n L : ℕ) (q : Finset ℕ) (s : Cluster) : ∀ a : Act, Decidable (AfterRecovery n L q s a)
  | .run (.deliver _ _ _) => inferInstanceAs (Decidable (_ ∧ ∀ _ ∈ _, _))
  | .run (.win _ _ _) | .run (.lose _ _ _) | .run (.propose _ _) | .run (.callElection _)
  | .run (.leaseRenew _ _) | .cut _ _ | .restart _ | .drop _ _ _ => inferInstanceAs (Decidable (_ ∧ True))

/-- The same event for each of the peons 1 to 4. -/
def eachPeon (f : ℕ → Event) : List Act := [1, 2, 3, 4].map fun a => .run (f a)

/-- Five monitors have committed version 1. Monitor 3 has picked 203 and monitor 1
has picked 401, in elections that came to nothing; then all lose to 0. -/
def higherNumbers : List Act :=
  [.restart 0, .restart 1, .restart 2, .restart 3, .restart 4, .run (.win 0 2 {0, 1, 2, 3, 4})] ++
    eachPeon (.lose · 2 0) ++ eachPeon (.deliver 0 · 0) ++ eachPeon (.deliver · 0 0) ++
    [.run (.propose 0 [1])] ++ eachPeon (.deliver 0 · 0) ++ eachPeon (.deliver 0 · 0) ++
    eachPeon (.deliver · 0 0) ++ eachPeon (.deliver · 0 0) ++ eachPeon (.deliver 0 · 0) ++
    eachPeon (.deliver 0 · 0) ++ eachPeon (.deliver · 0 0) ++
    [.run (.win 3 4 {2, 3, 4}), .run (.win 1 6 {1, 2, 4}), .run (.win 1 8 {1, 2, 4}),
      .run (.win 1 10 {1, 2, 4})] ++ eachPeon (.lose · 12 0)

/-- 0 collects under 200, and again under 300 on the LAST of 3; it then counts the
LASTs of 2 and 4 twice each and becomes active. Monitor 1 stays at 401. -/
def countedTwice : List Act :=
  eachPeon (.deliver 0 · 0) ++ [.run (.deliver 3 0 0), .run (.deliver 2 0 0), .run (.deliver 4 0 0),
    .run (.deliver 0 2 0), .run (.deliver 0 4 0), .run (.deliver 2 0 0), .run (.deliver 4 0 0),
    .run (.deliver 0 1 0), .run (.deliver 0 3 0)]

/-- All get a lease, and 0 proposes. Monitors 2 and 4 accept, and 0 commits.
Monitor 1 ignores the BEGIN and handles the COMMIT; 3 handles neither. -/
def ignoredBegin : List Act :=
  eachPeon (.deliver 0 · 0) ++ [.run (.propose 0 [2]), .run (.deliver 0 1 0), .run (.deliver 0 2 0),
    .run (.deliver 0 4 0), .run (.deliver 2 0 0), .run (.deliver 2 0 0), .run (.deliver 4 0 0),
    .run (.deliver 4 0 0), .run (.deliver 0 1 0)]

/-- Without the condition, two peons can read different versions at once. -/
theorem lease_reads_differ : ∃ s₀ s₁ s₂ s, Run.Reach (step 5 5) Run.anyAct fresh s₀ ∧
    Gathered 5 0 12 {0, 1, 2, 3, 4} s₀ ∧ step 5 5 s₀ (.run (.win 0 12 {0, 1, 2, 3, 4})) = some s₁ ∧
    Run.Reach (step 5 5) (fun _ a => InEpoch 5 0 {0, 1, 2, 3, 4} a) s₁ s₂ ∧
    (s₂.node 0).mon.state = .active ∧ Run.Reach (step 5 5) (AfterRecovery 5 0 {0, 1, 2, 3, 4}) s₂ s ∧
    (s.node 1).up = true ∧ (s.node 3).up = true ∧ isReadable 0 (s.node 1).mon = true ∧
    isReadable 0 (s.node 3).mon = true ∧ (s.node 1).mon.lastCommitted = 2 ∧
    (s.node 3).mon.lastCommitted = 1 := by
  have hrun : ((Run.exec (step 5 5) Run.anyAct higherNumbers fresh).bind fun s₀ : Cluster =>
      (step 5 5 s₀ (.run (.win 0 12 {0, 1, 2, 3, 4}))).bind fun s₁ : Cluster =>
      (Run.exec (step 5 5) (fun _ a => InEpoch 5 0 {0, 1, 2, 3, 4} a) countedTwice s₁).bind
        fun s₂ : Cluster =>
      (Run.exec (step 5 5) (AfterRecovery 5 0 {0, 1, 2, 3, 4}) ignoredBegin s₂).map fun s : Cluster =>
      decide (Lost 5 0 12 {0, 1, 2, 3, 4} s₀ ∧ (s₂.node 0).mon.state = .active ∧ (s.node 1).up = true ∧
        (s.node 3).up = true ∧ isReadable 0 (s.node 1).mon = true ∧ isReadable 0 (s.node 3).mon = true ∧
        (s.node 1).mon.lastCommitted = 2 ∧ (s.node 3).mon.lastCommitted = 1)) = some true := by
    decide +kernel
  obtain ⟨s₀, hs₀, h⟩ := bind_eq_some_iff.mp hrun
  obtain ⟨s₁, hwin, h⟩ := bind_eq_some_iff.mp h
  obtain ⟨s₂, hs₂, h⟩ := bind_eq_some_iff.mp h
  obtain ⟨s, hs, hd⟩ := map_eq_some_iff.mp h
  obtain ⟨hlost, hact, hprops⟩ := of_decide_eq_true hd
  exact ⟨s₀, s₁, s₂, s, Run.reach_of_exec hs₀, hlost.gathered, hwin, Run.reach_of_exec hs₂, hact,
    Run.reach_of_exec hs, hprops⟩

end runs

end Paxos
end Ceph
