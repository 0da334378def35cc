/-
# Capabilities of a client

The MDS keeps what it has granted to a client on an inode by the number of the
grant, from the last one the client has acknowledged on: the client may hold any
of them yet. An acknowledgement has the number of the last grant the client has
seen and what it has kept of it.

The links take grants to the client and acknowledgements back, in order. A client
that is merged in from another MDS holds what that one has granted until it sees
a grant from here. `revoke` takes back everything without a word to the client.
-/
import Ceph.Lib.Masks
import Ceph.Lib.Run

namespace Ceph
namespace Mds
namespace Caps

open List
open Option hiding max_le
open Masks Run

/-- `int` as a set of capabilities. -/
abbrev Mask := BitVec 32

/-- `Capability`: the grants by their numbers, the last one sent, and the last one the client has told of. -/
structure Capability where
  wantedCaps : Mask
  capHistory : List (ℕ × Mask)
  lastSent : ℕ
  lastRecv : ℕ
deriving DecidableEq

namespace Capability

def new (want : Mask) (s : ℕ) : Capability := ⟨want, [], s, s⟩

variable (c : Capability)

/-- `cap_history[seq]`, 0 where there is none. -/
def at' (seq : ℕ) : Mask := (c.capHistory.lookup seq).getD 0

/-- `cap_history[seq] = m`. -/
def put (seq : ℕ) (m : Mask) : Capability := { c with capHistory := (seq, m) :: c.capHistory.filter (·.1 ≠ seq) }

/-- Most recently issued caps. -/
def pending : Mask := c.at' c.lastSent

/-- Caps the client has confirmed receipt of. -/
def confirmed : Mask := c.at' c.lastRecv

/-- Caps potentially issued. The loop runs while a number of 32 bits is not above `last_sent`. -/
def issued : Option Mask :=
  if c.lastSent = 2 ^ 32 - 1 then none else some (gather c.at' c.lastRecv (c.lastSent + 1 - c.lastRecv))

/-- `issue`. -/
def issue (m : Mask) : Capability :=
  let seq := (c.lastSent + 1) % 2 ^ 32
  { c.put seq m with lastSent := seq }

/-- `Capability::Export`. -/
structure Export where
  wanted : Mask
  issued : Mask
  pending : Mask

/-- What both forms of `merge` do: all that was issued, and then what is to be had. -/
def mergeIssued (wanted issued newpending : Mask) : Capability :=
  let c' := if issued &&& ~~~newpending ≠ 0 then c.issue (issued ||| newpending) else c
  { c'.issue newpending with wantedCaps := c.wantedCaps ||| wanted }

/-- `merge(Export& other)`. -/
def merge (other : Export) : Capability := c.mergeIssued other.wanted other.issued (other.pending ||| c.pending)

/-- `merge(int otherwanted, int otherissued)`. -/
def mergeReconnect (otherwanted otherissued : Mask) : Capability := c.mergeIssued otherwanted otherissued c.pending

/-- The loop over the old grants: `n` of them are forgotten. -/
def forget : ℕ → Capability → Mask → Mask × Capability
  | 0, c, r => (r, c)
  | n + 1, c, r =>
    forget n { c with capHistory := c.capHistory.filter (·.1 ≠ c.lastRecv), lastRecv := c.lastRecv + 1 }
      (r ||| c.at' c.lastRecv)

/-- The grant of the number is revised to what the client has kept of it. -/
def release (seq : ℕ) (caps r : Mask) : Option (Mask × Capability) :=
  match c.capHistory.lookup seq with
  | some held =>
    if held = caps then some (r, c)
    -- assert(cap_history[seq] & ~caps)
    else if held &&& ~~~caps = 0 then none
    else some (r ||| (held &&& ~~~caps), c.put seq caps)
  | none => some (r, c)

/-- A client that has kept nothing of the only grant holds nothing. -/
def clearNull (seq : ℕ) (caps : Mask) : Capability :=
  if caps = 0 ∧ c.capHistory.length = 1 ∧ (c.capHistory.lookup seq).isSome then { c with capHistory := [] } else c

/-- `confirm_receipt`; `none` where the assertion fails. -/
def confirmReceipt (seq : ℕ) (caps : Mask) : Option (Mask × Capability) :=
  let old := forget (seq - c.lastRecv) c 0
  (release old.2 seq caps old.1).map fun p => (p.1, p.2.clearNull seq caps)

/-- `revoke`. -/
def revoke : Option Capability :=
  let c' := if c.pending ≠ 0 then c.issue 0 else c
  (c'.confirmReceipt c'.lastSent 0).map Prod.snd

end Capability

open Capability

/-! ### The client and the links -/

/-- The client: the last grant it has seen, what it has kept of it, and what it has from another MDS, until it sees a
grant from a number on. -/
structure Client where
  seq : ℕ
  caps : Mask
  stale : List (ℕ × Mask)
deriving DecidableEq

/-- The caps the client holds. -/
def Client.held (k : Client) : Mask := k.stale.foldr (fun e m => e.2 ||| m) k.caps

/-- The MDS's capability, the number of the last grant sent to the client, the links, and the number at which the
capability was last revoked. -/
structure Sys where
  cap : Capability
  told : ℕ
  down : List (ℕ × Mask)
  up : List (ℕ × Mask)
  client : Client
  revoked : ℕ
deriving DecidableEq

def start (want : Mask) : Sys := ⟨.new want 0, 0, [], [], ⟨0, 0, []⟩, 0⟩

/-- What may happen; a client that is merged in holds `held` of what was issued to it. -/
inductive Act
  | issue (m : Mask)
  | merge (other : Export) (held : Mask)
  | reconnect (otherwanted otherissued held : Mask)
  | revoke
  | tell
  | receive
  | ack (keep : Mask)
  | confirm

/-- A client that is merged in. -/
def Sys.joined (s : Sys) (c : Capability) (issued held : Mask) : Option Sys :=
  if Within held issued then
    some { s with cap := c, client := { s.client with stale := (s.cap.lastSent + 1, held) :: s.client.stale } }
  else none

def step (s : Sys) : Act → Option Sys
  | .issue m => some { s with cap := s.cap.issue m }
  | .merge other held => s.joined (s.cap.merge other) other.issued held
  | .reconnect otherwanted otherissued held => s.joined (s.cap.mergeReconnect otherwanted otherissued) otherissued held
  | .revoke => s.cap.revoke.map fun c => { s with cap := c, revoked := c.lastSent }
  | .tell =>
    if s.told < s.cap.lastSent then
      some { s with told := s.cap.lastSent, down := s.down ++ [(s.cap.lastSent, s.cap.pending)] }
    else none
  | .receive =>
    match s.down with
    | (seq, m) :: down => some { s with down, client := ⟨seq, m, s.client.stale.filter (seq < ·.1)⟩ }
    | [] => none
  | .ack keep =>
    let caps := s.client.caps &&& keep
    some { s with client := { s.client with caps }, up := s.up ++ [(s.client.seq, caps)] }
  | .confirm =>
    match s.up with
    | (seq, caps) :: up => (s.cap.confirmReceipt seq caps).map fun p => { s with cap := p.2, up }
    | [] => none

/-- The numbers of 32 bits do not run out. -/
def Numbered (s : Sys) (_ : Act) : Prop := s.cap.lastSent + 2 < 2 ^ 32 - 1

instance (s : Sys) (a : Act) : Decidable (Numbered s a) := inferInstanceAs (Decidable (_ < _))

/-! ### One operation on the capability -/

namespace Capability

variable {c : Capability} {m : Mask} {seq k : ℕ}

theorem lookup_erase (l : List (ℕ × Mask)) (seq k : ℕ) :
    (l.filter (·.1 ≠ seq)).lookup k = if k = seq then none else l.lookup k := by
  induction l with
  | nil => simp
  | cons e l ih =>
    by_cases he : e.1 = seq
    · rw [filter_cons_of_neg (by simpa using he), ih]
      split_ifs with hk
      · rfl
      · rw [lookup_cons, beq_eq_false_iff_ne.mpr fun h => hk (h.trans he)]
    · rw [filter_cons_of_pos (by simpa using he), lookup_cons, lookup_cons, ih]
      by_cases hk : k = e.1
      · subst hk
        simp [he]
      · rw [beq_eq_false_iff_ne.mpr hk]

theorem lookup_put : (c.put seq m).capHistory.lookup k = if k = seq then some m else c.capHistory.lookup k := by
  rw [put, lookup_cons, lookup_erase]
  by_cases hk : k = seq
  · rw [beq_iff_eq.mpr hk, if_pos hk]
    exact (if_pos hk).symm
  · rw [beq_eq_false_iff_ne.mpr hk, if_neg hk]
    exact (if_neg hk).symm

theorem at_put : (c.put seq m).at' k = if k = seq then m else c.at' k := by
  rw [at', lookup_put]
  split_ifs <;> rfl

/-- The grants are numbered from the last one confirmed to the last one sent. -/
structure Ordered (c : Capability) : Prop where
  le : c.lastRecv ≤ c.lastSent
  keys : ∀ k, c.lastRecv ≤ k ∧ k ≤ c.lastSent ∨ c.capHistory.lookup k = none

theorem Ordered.at_zero (ho : c.Ordered) (hk : ¬ (c.lastRecv ≤ k ∧ k ≤ c.lastSent)) : c.at' k = 0 := by
  rw [at', (ho.keys k).resolve_left hk]
  rfl

theorem issue_spec (ho : c.Ordered) (hroom : c.lastSent + 1 < 2 ^ 32) :
    (c.issue m).Ordered ∧ (c.issue m).lastSent = c.lastSent + 1 ∧ (c.issue m).lastRecv = c.lastRecv ∧
      ∀ k, (c.issue m).at' k = if k = c.lastSent + 1 then m else c.at' k := by
  have hseq : (c.lastSent + 1) % 2 ^ 32 = c.lastSent + 1 := Nat.mod_eq_of_lt hroom
  have hlast : (c.issue m).lastSent = c.lastSent + 1 := hseq
  have hlookup : ∀ k, (c.issue m).capHistory.lookup k = if k = c.lastSent + 1 then some m else c.capHistory.lookup k := by
    intro k
    rw [← hseq]
    exact lookup_put
  have hle := ho.le
  refine ⟨⟨?_, fun k => ?_⟩, hlast, rfl, fun k => ?_⟩
  · rw [hlast]
    exact hle.trans (Nat.le_succ _)
  · rw [hlast, hlookup]
    change c.lastRecv ≤ k ∧ k ≤ c.lastSent + 1 ∨ _
    split_ifs with hk
    · exact .inl ⟨by omega, by omega⟩
    · rcases ho.keys k with hin | hnone
      · exact .inl ⟨by omega, by omega⟩
      · exact .inr hnone
  · rw [at', hlookup]
    split_ifs <;> rfl

theorem mergeIssued_spec (wanted issued newpending : Mask) (ho : c.Ordered) (hroom : c.lastSent + 2 < 2 ^ 32) :
    (c.mergeIssued wanted issued newpending).Ordered ∧
      c.lastSent + 1 ≤ (c.mergeIssued wanted issued newpending).lastSent ∧
      (c.mergeIssued wanted issued newpending).lastSent ≤ c.lastSent + 2 ∧
      (c.mergeIssued wanted issued newpending).lastRecv = c.lastRecv ∧
      Within issued ((c.mergeIssued wanted issued newpending).at' (c.lastSent + 1)) ∧
      ∀ k ≤ c.lastSent, (c.mergeIssued wanted issued newpending).at' k = c.at' k := by
  unfold mergeIssued
  split_ifs with hmore
  · obtain ⟨ho1, hs1, hr1, hat1⟩ := issue_spec (m := issued ||| newpending) ho (by omega)
    obtain ⟨ho2, hs2, hr2, hat2⟩ := issue_spec (m := newpending) ho1 (by omega)
    refine ⟨⟨ho2.le, ho2.keys⟩, hs2.ge.trans' (by omega), hs2.le.trans (by omega), hr2.trans hr1, ?_, fun k hk => ?_⟩
    · change Within issued (((c.issue (issued ||| newpending)).issue newpending).at' (c.lastSent + 1))
      rw [hat2, if_neg (by omega), hat1, if_pos rfl]
      exact within_or_left _ _
    · change ((c.issue (issued ||| newpending)).issue newpending).at' k = _
      rw [hat2, if_neg (by omega), hat1, if_neg (by omega)]
  · obtain ⟨ho1, hs1, hr1, hat1⟩ := issue_spec (m := newpending) ho (by omega)
    refine ⟨⟨ho1.le, ho1.keys⟩, hs1.ge, hs1.le.trans (by omega), hr1, ?_, fun k hk => ?_⟩
    · change Within issued ((c.issue newpending).at' (c.lastSent + 1))
      rw [hat1, if_pos rfl]
      exact not_not.mp hmore
    · change (c.issue newpending).at' k = _
      rw [hat1, if_neg (by omega)]

/-! ### Confirming -/

theorem forget_spec : ∀ (n : ℕ) (c : Capability) (r : Mask),
    (forget n c r).1 = r ||| gather c.at' c.lastRecv n ∧ (forget n c r).2.lastSent = c.lastSent ∧
      (forget n c r).2.lastRecv = c.lastRecv + n ∧
      ∀ k, (forget n c r).2.capHistory.lookup k =
        if c.lastRecv ≤ k ∧ k < c.lastRecv + n then none else c.capHistory.lookup k
  | 0, c, r => ⟨by simp [forget, gather], rfl, rfl, fun k => (if_neg (by omega)).symm⟩
  | n + 1, c, r => by
    obtain ⟨hr, hs, hl, hk⟩ := forget_spec n
      { c with capHistory := c.capHistory.filter (·.1 ≠ c.lastRecv), lastRecv := c.lastRecv + 1 } (r ||| c.at' c.lastRecv)
    have hat : ∀ k, c.lastRecv + 1 ≤ k → at' { c with capHistory := c.capHistory.filter (·.1 ≠ c.lastRecv), lastRecv := c.lastRecv + 1 } k =
        c.at' k := by
      intro k hk
      rw [at', lookup_erase, if_neg (by omega)]
      rfl
    refine ⟨?_, hs, ?_, fun k => ?_⟩
    · rw [forget, hr, gather_congr (fun i _ => hat _ (Nat.le_add_right _ i)), Nat.add_comm n 1, gather_append]
      simp [gather, BitVec.or_assoc]
    · rw [forget, hl]
      dsimp only
      omega
    · rw [forget, hk]
      dsimp only
      rw [lookup_erase]
      split_ifs with h1 h2 h3 h4
      · rfl
      · omega
      · rfl
      · omega
      · omega
      · rfl

/-- Forgetting the only grant changes nothing if nothing is kept of it. -/
theorem clearNull_spec {caps : Mask} (ho : c.Ordered) (hseq : ∀ held, c.capHistory.lookup seq = some held → held = caps) :
    (c.clearNull seq caps).Ordered ∧ (c.clearNull seq caps).lastSent = c.lastSent ∧
      (c.clearNull seq caps).lastRecv = c.lastRecv ∧ ∀ k, (c.clearNull seq caps).at' k = c.at' k := by
  unfold clearNull
  split_ifs with hnull
  · obtain ⟨hzero, hlen, hsome⟩ := hnull
    refine ⟨⟨ho.le, fun k => .inr rfl⟩, rfl, rfl, fun k => ?_⟩
    obtain ⟨e, he⟩ := length_eq_one_iff.mp hlen
    obtain ⟨held, hheld⟩ := isSome_iff_exists.mp hsome
    have hnone : c.at' k = 0 := by
      rw [at']
      cases hk : c.capHistory.lookup k with
      | none => rfl
      | some v =>
        rw [he, lookup_cons] at hk hheld
        split at hk
        · split at hheld
          · cases hk
            cases hheld
            have hval : c.capHistory.lookup seq = some e.2 := by
              rw [he, lookup_cons, ‹(seq == e.1) = true›]
            exact (hseq e.2 hval).trans hzero
          · nomatch hheld
        · nomatch hk
    rw [hnone]
    rfl
  · exact ⟨ho, rfl, rfl, fun _ => rfl⟩

/-- **What an acknowledgement does** that is not older than the last one: the grants before it are forgotten, and of its
own the caps that were kept are left. The assertion holds. -/
theorem confirmReceipt_spec {c : Capability} {seq : ℕ} {caps : Mask} (ho : c.Ordered) (hlow : c.lastRecv ≤ seq) (hhigh : seq ≤ c.lastSent)
    (hkept : Within caps (c.at' seq)) : ∃ r c', c.confirmReceipt seq caps = some (r, c') ∧ c'.Ordered ∧
      c'.lastSent = c.lastSent ∧ c'.lastRecv = seq ∧
      (∀ k, c'.at' k = if k < seq then 0 else if k = seq then caps else c.at' k) ∧
      r = gather c.at' c.lastRecv (seq - c.lastRecv) ||| (c.at' seq &&& ~~~caps) := by
  obtain ⟨hr, hs, hl, hlook⟩ := forget_spec (seq - c.lastRecv) c 0
  rw [Nat.add_sub_cancel' hlow] at hl hlook
  obtain ⟨c1, hc1⟩ : ∃ c1, c1 = (forget (seq - c.lastRecv) c 0).2 := ⟨_, rfl⟩
  rw [← hc1] at hs hl hlook
  replace hr : (forget (seq - c.lastRecv) c 0).1 = gather c.at' c.lastRecv (seq - c.lastRecv) := by simpa using hr
  have ho1 : c1.Ordered := by
    refine ⟨by omega, fun k => ?_⟩
    rw [hlook, hl, hs]
    rcases ho.keys k with hin | hnone
    · split_ifs with hold
      · exact .inr rfl
      · exact .inl ⟨by omega, hin.2⟩
    · rw [hnone]
      exact .inr (ite_self none)
  have hat1 : ∀ k, c1.at' k = if k < seq then 0 else c.at' k := by
    intro k
    rw [at', hlook]
    split_ifs with hold hlt hlt
    · rfl
    · omega
    · exact ho.at_zero (by omega)
    · rfl
  -- the grant of the number, revised
  obtain ⟨r, c2, hrel, ho2, hs2, hl2, hat2, hseq2, hr2⟩ : ∃ r c2, release c1 seq caps (forget (seq - c.lastRecv) c 0).1 = some (r, c2) ∧
      c2.Ordered ∧ c2.lastSent = c1.lastSent ∧ c2.lastRecv = c1.lastRecv ∧
      (∀ k, c2.at' k = if k = seq then caps else c1.at' k) ∧ (∀ held, c2.capHistory.lookup seq = some held → held = caps) ∧
      r = (forget (seq - c.lastRecv) c 0).1 ||| (c.at' seq &&& ~~~caps) := by
    have hcongr : c1.at' seq = caps → ∀ k, c1.at' k = if k = seq then caps else c1.at' k := by
      intro heq k
      split_ifs with hk
      · rw [hk, heq]
      · rfl
    have hatseq : c1.at' seq = c.at' seq := by rw [hat1, if_neg (lt_irrefl seq)]
    unfold release
    cases hheld : c1.capHistory.lookup seq with
    | none =>
      have hzero : c.at' seq = 0 := by rw [← hatseq, at', hheld]; rfl
      have hcaps : caps = 0 := within_zero (hzero ▸ hkept)
      refine ⟨_, c1, rfl, ho1, rfl, rfl, hcongr (by rw [hatseq, hzero, hcaps]), fun held h => ?_, ?_⟩
      · nomatch hheld.symm.trans h
      · simp [hzero]
    | some held =>
      have hval : c.at' seq = held := by rw [← hatseq, at', hheld]; rfl
      dsimp only
      by_cases heq : held = caps
      · rw [if_pos heq]
        refine ⟨_, c1, rfl, ho1, rfl, rfl, hcongr (by rw [hatseq, hval, heq]), fun held' h => ?_, ?_⟩
        · cases hheld.symm.trans h
          exact heq
        · rw [hval, heq]
          simp
      · rw [if_neg heq, if_neg (split_ne_zero (hval ▸ hkept) heq)]
        refine ⟨_, c1.put seq caps, rfl, ⟨ho1.le, fun k => ?_⟩, rfl, rfl, fun k => at_put, fun held' h => ?_, by rw [hval]⟩
        · rw [lookup_put]
          split_ifs with hk
          · exact .inl ⟨by rw [hk]; exact hl.le, by rw [hk]; exact hhigh.trans hs.ge⟩
          · exact ho1.keys k
        · rw [lookup_put, if_pos rfl] at h
          exact (some.inj h).symm
  obtain ⟨ho3, hs3, hl3, hat3⟩ := clearNull_spec ho2 hseq2
  refine ⟨r, c2.clearNull seq caps, ?_, ho3, ?_, ?_, fun k => ?_, by rw [hr2, hr]⟩
  · rw [confirmReceipt, ← hc1, hrel]
    rfl
  · rw [hs3, hs2, hs]
  · rw [hl3, hl2, hl]
  · rw [hat3, hat2, hat1]
    split_ifs with h1 h2 h3
    · omega
    · rfl
    · rfl
    · rfl

theorem confirmReceipt_old {caps : Mask} (ho : c.Ordered) (hold : seq < c.lastRecv) :
    c.confirmReceipt seq caps = some (0, c) := by
  have hnone := (ho.keys seq).resolve_left (by omega)
  have hzero : seq - c.lastRecv = 0 := by omega
  have hnull : c.clearNull seq caps = c := by
    rw [clearNull, hnone]
    exact if_neg fun h => nomatch h.2.2
  rw [confirmReceipt, hzero]
  simp only [forget, release, hnone, map_some, hnull]

/-- What taking everything back does: nothing is issued any more, and the number is one that the client has not been
told of, unless nothing was to be had. -/
theorem revoke_spec (ho : c.Ordered) (hroom : c.lastSent + 1 < 2 ^ 32) : ∃ c', c.revoke = some c' ∧ c'.Ordered ∧
    c.lastSent ≤ c'.lastSent ∧ c'.lastSent ≤ c.lastSent + 1 ∧ c'.lastRecv = c'.lastSent ∧ (∀ k, c'.at' k = 0) ∧
    (c'.lastSent = c.lastSent → c.pending = 0) := by
  obtain ⟨c1, hc1⟩ : ∃ c1, c1 = if c.pending ≠ 0 then c.issue 0 else c := ⟨_, rfl⟩
  obtain ⟨ho1, hlow, hhigh, hzero, hsame⟩ : c1.Ordered ∧ c.lastSent ≤ c1.lastSent ∧ c1.lastSent ≤ c.lastSent + 1 ∧
      c1.at' c1.lastSent = 0 ∧ (c1.lastSent = c.lastSent → c.pending = 0) := by
    rw [hc1]
    split_ifs with hp
    · obtain ⟨ho1, hs1, -, hat1⟩ := issue_spec (m := 0) ho hroom
      exact ⟨ho1, by omega, by omega, by rw [hat1, hs1, if_pos rfl], fun h => by omega⟩
    · exact ⟨ho, le_rfl, Nat.le_succ _, not_not.mp hp, fun _ => not_not.mp hp⟩
  have hkept : Within 0 (c1.at' c1.lastSent) := zero_within _
  obtain ⟨r, c', hconf, ho', hs', hl', hat', -⟩ := confirmReceipt_spec ho1 ho1.le le_rfl hkept
  refine ⟨c', ?_, ho', hs' ▸ hlow, hs' ▸ hhigh, hl'.trans hs'.symm, fun k => ?_, fun h => hsame (hs' ▸ h)⟩
  · rw [revoke, ← hc1, hconf]
    rfl
  · rw [hat']
    split_ifs with h1 h2
    · rfl
    · rfl
    · exact ho1.at_zero (by omega)

end Capability

/-! ### Runs -/

/-- What holds between the MDS's capability and the client. After a revoke the client is bound again from the first
later grant on that it sees. -/
structure Inv (s : Sys) : Prop where
  cap : s.cap.Ordered
  room : s.cap.lastSent < 2 ^ 32 - 1
  told : s.told ≤ s.cap.lastSent
  seen : s.client.seq ≤ s.told
  sorted : s.down.Pairwise fun a b => a.1 < b.1
  down : ∀ g ∈ s.down, s.client.seq < g.1 ∧ g.1 ≤ s.told ∧ (s.revoked ≤ g.1 → g.2 = s.cap.at' g.1)
  revoked : s.revoked ≤ s.cap.lastRecv
  recv : s.cap.lastRecv ≤ max s.client.seq s.revoked
  caps : s.revoked ≤ s.client.seq → Within s.client.caps (s.cap.at' s.client.seq)
  order : s.up.Pairwise fun a b => a.1 ≤ b.1 ∧ (a.1 = b.1 → Within b.2 a.2)
  up : ∀ a ∈ s.up, a.1 ≤ s.client.seq ∧ (a.1 = s.client.seq → Within s.client.caps a.2) ∧
    (s.revoked ≤ a.1 → s.cap.lastRecv ≤ a.1 ∧ Within a.2 (s.cap.at' a.1))
  stale : ∀ e ∈ s.client.stale, s.client.seq < e.1 ∧ e.1 ≤ s.cap.lastSent ∧
    (s.revoked < e.1 → Within e.2 (s.cap.at' e.1))

theorem inv_start (want : Mask) : Inv (start want) where
  cap := ⟨le_rfl, fun _ => .inr rfl⟩
  room := (by decide : 0 < 2 ^ 32 - 1)
  told := le_rfl
  seen := le_rfl
  sorted := .nil
  down := nofun
  revoked := le_rfl
  recv := Nat.zero_le _
  caps _ := zero_within _
  order := .nil
  up := nofun
  stale := nofun

section steps

variable {s : Sys}

section

variable (hi : Inv s)
include hi

/-- New grants leave the old ones as they are. -/
theorem Inv.grow {c : Capability} (ho : c.Ordered) (hroom : c.lastSent < 2 ^ 32 - 1)
    (hsent : s.cap.lastSent ≤ c.lastSent) (hrecv : c.lastRecv = s.cap.lastRecv)
    (hat : ∀ k ≤ s.cap.lastSent, c.at' k = s.cap.at' k) : Inv { s with cap := c } where
  cap := ho
  room := hroom
  told := hi.told.trans hsent
  seen := hi.seen
  sorted := hi.sorted
  down g hg := by
    obtain ⟨hnew, htold, hval⟩ := hi.down g hg
    exact ⟨hnew, htold, fun hr => (hval hr).trans (hat _ (htold.trans hi.told)).symm⟩
  revoked := hi.revoked.trans hrecv.ge
  recv := hrecv.le.trans hi.recv
  caps hr := by
    rw [hat _ (hi.seen.trans hi.told)]
    exact hi.caps hr
  order := hi.order
  up a ha := by
    obtain ⟨hseq, hsub, hbound⟩ := hi.up a ha
    refine ⟨hseq, hsub, fun hr => ⟨hrecv.le.trans (hbound hr).1, ?_⟩⟩
    rw [hat _ (hseq.trans (hi.seen.trans hi.told))]
    exact (hbound hr).2
  stale e he := by
    obtain ⟨hnew, hsent', hbound⟩ := hi.stale e he
    refine ⟨hnew, hsent'.trans hsent, fun hr => ?_⟩
    rw [hat _ hsent']
    exact hbound hr

theorem Inv.joined {wanted issued newpending held : Mask} {s' : Sys} (hroom : s.cap.lastSent + 2 < 2 ^ 32 - 1)
    (hj : s.joined (s.cap.mergeIssued wanted issued newpending) issued held = some s') : Inv s' := by
  obtain ⟨hheld, ⟨⟩⟩ := ite_none_right_eq_some.mp hj
  obtain ⟨ho, hlow, hhigh, hrecv, hnew, hat⟩ := mergeIssued_spec wanted issued newpending hi.cap (by omega)
  have hi' := hi.grow ho (by omega) (by omega) hrecv hat
  refine { hi' with stale := ?_ }
  refine forall_mem_cons.mpr ⟨⟨?_, hlow, fun _ => hheld.trans hnew⟩, hi'.stale⟩
  exact Nat.lt_succ_of_le (hi.seen.trans hi.told)

/-- Everything is taken back. -/
theorem Inv.revoke {c : Capability} (hroom : s.cap.lastSent + 2 < 2 ^ 32 - 1) (hc : s.cap.revoke = some c) :
    Inv { s with cap := c, revoked := c.lastSent } := by
  obtain ⟨c', hc', ho, hlow, hhigh, hrecv, hzero, hsame⟩ := revoke_spec hi.cap (by omega)
  cases hc.symm.trans hc'
  -- what has been told of with the number is that nothing is to be had
  have hlast : ∀ k, k ≤ s.cap.lastSent → c.lastSent ≤ k → s.cap.at' k = 0 := by
    intro k hk hle
    obtain rfl : k = s.cap.lastSent := by omega
    exact hsame (by omega)
  have hle : s.revoked ≤ s.cap.lastSent := hi.revoked.trans hi.cap.le
  refine { cap := ho, room := ?_, told := hi.told.trans hlow, seen := hi.seen, sorted := hi.sorted, down := ?_,
           revoked := hrecv.ge, recv := hrecv.trans_le (le_max_right _ _), caps := ?_, order := hi.order, up := ?_, stale := ?_ }
  · dsimp only
    omega
  · intro g hg
    obtain ⟨hnew, htold, hval⟩ := hi.down g hg
    refine ⟨hnew, htold, fun hr => ?_⟩
    have hr' : c.lastSent ≤ g.1 := hr
    have hsent := htold.trans hi.told
    rw [hval (by omega), hlast _ hsent hr']
    exact (hzero _).symm
  · intro hr
    have hr' : c.lastSent ≤ s.client.seq := hr
    have hsent := hi.seen.trans hi.told
    have hcaps := hi.caps (by omega)
    rw [hlast _ hsent hr'] at hcaps
    exact hcaps.trans (zero_within _)
  · intro a ha
    obtain ⟨hseq, hsub, hbound⟩ := hi.up a ha
    refine ⟨hseq, hsub, fun hr => ⟨hrecv.trans_le hr, ?_⟩⟩
    have hr' : c.lastSent ≤ a.1 := hr
    have hsent := hseq.trans (hi.seen.trans hi.told)
    have hcaps := (hbound (by omega)).2
    rw [hlast _ hsent hr'] at hcaps
    exact hcaps.trans (zero_within _)
  · intro e he
    obtain ⟨hnew, hsent, -⟩ := hi.stale e he
    refine ⟨hnew, hsent.trans hlow, fun hr => ?_⟩
    have hr' : c.lastSent < e.1 := hr
    omega

theorem Inv.tell (hnew : s.told < s.cap.lastSent) :
    Inv { s with told := s.cap.lastSent, down := s.down ++ [(s.cap.lastSent, s.cap.pending)] } where
  cap := hi.cap
  room := hi.room
  told := le_rfl
  seen := hi.seen.trans hi.told
  sorted := by
    refine pairwise_append.mpr ⟨hi.sorted, pairwise_singleton _ _, fun a ha b hb => ?_⟩
    rw [mem_singleton.mp hb]
    exact (hi.down a ha).2.1.trans_lt hnew
  down := by
    refine forall_mem_append.mpr ⟨fun g hg => ?_, forall_mem_singleton.mpr ⟨?_, le_rfl, fun _ => rfl⟩⟩
    · obtain ⟨hlow, htold, hval⟩ := hi.down g hg
      exact ⟨hlow, htold.trans hi.told, hval⟩
    · exact hi.seen.trans_lt hnew
  revoked := hi.revoked
  recv := hi.recv
  caps := hi.caps
  order := hi.order
  up := hi.up
  stale := hi.stale

theorem Inv.receive {seq : ℕ} {m : Mask} {down : List (ℕ × Mask)} (hd : s.down = (seq, m) :: down) :
    Inv { s with down, client := ⟨seq, m, s.client.stale.filter (seq < ·.1)⟩ } := by
  have hsorted := hi.sorted
  rw [hd, pairwise_cons] at hsorted
  have hmem : (seq, m) ∈ s.down := hd ▸ mem_cons_self
  obtain ⟨hnew, htold, hval⟩ := hi.down _ hmem
  refine { cap := hi.cap, room := hi.room, told := hi.told, seen := htold, sorted := hsorted.2, down := ?_,
           revoked := hi.revoked, recv := ?_, caps := ?_, order := hi.order, up := ?_, stale := ?_ }
  · intro g hg
    obtain ⟨-, htold', hval'⟩ := hi.down g (hd ▸ mem_cons_of_mem _ hg)
    exact ⟨hsorted.1 g hg, htold', hval'⟩
  · exact hi.recv.trans (max_le_max_right _ hnew.le)
  · intro hr
    exact (hval hr) ▸ .refl _
  · intro a ha
    obtain ⟨hseq, -, hbound⟩ := hi.up a ha
    have hlt : a.1 < seq := hseq.trans_lt hnew
    exact ⟨hlt.le, fun heq => absurd heq hlt.ne, hbound⟩
  · intro e he
    rw [mem_filter, decide_eq_true_eq] at he
    exact ⟨he.2, (hi.stale e he.1).2⟩

theorem Inv.ack (keep : Mask) :
    Inv { s with client := { s.client with caps := s.client.caps &&& keep }
                 up := s.up ++ [(s.client.seq, s.client.caps &&& keep)] } where
  cap := hi.cap
  room := hi.room
  told := hi.told
  seen := hi.seen
  sorted := hi.sorted
  down := hi.down
  revoked := hi.revoked
  recv := hi.recv
  caps hr := (and_within _ _).trans (hi.caps hr)
  order := by
    refine pairwise_append.mpr ⟨hi.order, pairwise_singleton _ _, fun a ha b hb => ?_⟩
    rw [mem_singleton.mp hb]
    obtain ⟨hseq, hsub, -⟩ := hi.up a ha
    exact ⟨hseq, fun heq => (and_within _ _).trans (hsub heq)⟩
  up := by
    refine forall_mem_append.mpr ⟨fun a ha => ?_, forall_mem_singleton.mpr ⟨le_rfl, fun _ => .refl _, fun hr => ?_⟩⟩
    · obtain ⟨hseq, hsub, hbound⟩ := hi.up a ha
      exact ⟨hseq, fun heq => (and_within _ _).trans (hsub heq), hbound⟩
    · exact ⟨hi.recv.trans (max_le le_rfl hr), (and_within _ _).trans (hi.caps hr)⟩
  stale := hi.stale

/-- The MDS takes an acknowledgement, without the assertion failing; what it returns and what is issued yet is together
what was issued. -/
theorem Inv.confirm {seq : ℕ} {caps : Mask} {up : List (ℕ × Mask)} (hu : s.up = (seq, caps) :: up) :
    ∃ r c, s.cap.confirmReceipt seq caps = some (r, c) ∧ Inv { s with cap := c, up } ∧
      ∃ before after, s.cap.issued = some before ∧ c.issued = some after ∧ r ||| after = before := by
  have horder := hi.order
  rw [hu, pairwise_cons] at horder
  have hmem : (seq, caps) ∈ s.up := hu ▸ mem_cons_self
  obtain ⟨hseq, hsub, hbound⟩ := hi.up _ hmem
  have hrest : ∀ a ∈ up, a ∈ s.up := fun a ha => hu ▸ mem_cons_of_mem _ ha
  have hissued : ∀ {c : Capability}, c.lastSent = s.cap.lastSent →
      c.issued = some (gather c.at' c.lastRecv (c.lastSent + 1 - c.lastRecv)) := fun hc => by
    rw [issued, if_neg (hc ▸ hi.room.ne)]
  by_cases hold : seq < s.revoked
  · -- the number is one from before a revoke
    refine ⟨0, s.cap, confirmReceipt_old hi.cap (hold.trans_le hi.revoked), ?_, _, _, hissued rfl, hissued rfl, by simp⟩
    exact { hi with order := horder.2, up := fun a ha => hi.up a (hrest a ha) }
  obtain ⟨hlow, hkept⟩ := hbound (not_lt.mp hold)
  have hsent : seq ≤ s.cap.lastSent := hseq.trans (hi.seen.trans hi.told)
  obtain ⟨r, c, hconf, ho, hs, hl, hat, hr⟩ := confirmReceipt_spec hi.cap hlow hsent hkept
  refine ⟨r, c, hconf, ?_, _, _, hissued rfl, hissued hs, ?_⟩
  · have hlater : ∀ k, seq < k → c.at' k = s.cap.at' k := fun k hk => by rw [hat, if_neg (by omega), if_neg (by omega)]
    have hsame : c.at' seq = caps := by rw [hat, if_neg (lt_irrefl seq), if_pos rfl]
    refine { cap := ho, room := hs ▸ hi.room, told := hs ▸ hi.told, seen := hi.seen, sorted := hi.sorted, down := ?_,
             revoked := hl ▸ not_lt.mp hold, recv := ?_, caps := ?_, order := horder.2, up := ?_, stale := ?_ }
    · intro g hg
      obtain ⟨hnew, htold, hval⟩ := hi.down g hg
      exact ⟨hnew, htold, fun h => (hval h).trans (hlater _ (hseq.trans_lt hnew)).symm⟩
    · exact hl.trans_le (hseq.trans (le_max_left _ _))
    · intro h
      rcases hseq.lt_or_eq with hlt | heq
      · rw [hlater _ hlt]
        exact hi.caps h
      · have heq' : seq = s.client.seq := heq
        rw [← heq', hsame]
        exact hsub heq
    · intro a ha
      obtain ⟨hseq', hsub', hbound'⟩ := hi.up a (hrest a ha)
      obtain ⟨hle, hshrink⟩ := horder.1 a ha
      refine ⟨hseq', hsub', fun h => ⟨hl.trans_le hle, ?_⟩⟩
      rcases hle.lt_or_eq with hlt | heq
      · rw [hlater _ hlt]
        exact (hbound' h).2
      · have heq' : seq = a.1 := heq
        rw [← heq', hsame]
        exact hshrink heq
    · intro e he
      obtain ⟨hnew, hsent', hbound'⟩ := hi.stale e he
      refine ⟨hnew, hs ▸ hsent', fun h => ?_⟩
      rw [hlater _ (hseq.trans_lt hnew)]
      exact hbound' h
  · -- the grants before the number, the one of the number, and those after it
    obtain ⟨n, hn⟩ : ∃ n, s.cap.lastSent = seq + n := ⟨s.cap.lastSent - seq, by omega⟩
    obtain ⟨m, hm⟩ : ∃ m, seq = s.cap.lastRecv + m := ⟨seq - s.cap.lastRecv, by omega⟩
    have hcount : s.cap.lastSent + 1 - s.cap.lastRecv = m + (1 + n) := by omega
    have hcount' : c.lastSent + 1 - c.lastRecv = 1 + n := by omega
    have hm' : seq - s.cap.lastRecv = m := by omega
    have hrest' : gather c.at' (seq + 1) n = gather s.cap.at' (seq + 1) n :=
      gather_congr fun i _ => by rw [hat, if_neg (by omega), if_neg (by omega)]
    have hone : ∀ f : ℕ → Mask, gather f seq 1 = f seq := fun f => by simp [gather]
    have hsame : c.at' seq = caps := by rw [hat, if_neg (lt_irrefl seq), if_pos rfl]
    rw [hr, hcount, hcount', hm', hl, gather_append, gather_append, hone, ← hm, gather_append, hone, hrest', hsame]
    calc gather s.cap.at' s.cap.lastRecv m ||| s.cap.at' seq &&& ~~~caps ||| (caps ||| gather s.cap.at' (seq + 1) n)
        = gather s.cap.at' s.cap.lastRecv m ||| ((s.cap.at' seq &&& ~~~caps ||| caps) ||| gather s.cap.at' (seq + 1) n) := by
          simp only [BitVec.or_assoc]
      _ = gather s.cap.at' s.cap.lastRecv m ||| (s.cap.at' seq ||| gather s.cap.at' (seq + 1) n) := by
          rw [within_split hkept]

theorem Inv.step {a : Act} {s' : Sys} (hok : Numbered s a) (hs : step s a = some s') : Inv s' := by
  unfold Numbered at hok
  cases a with
  | issue m =>
    cases hs
    obtain ⟨ho, hsent, hrecv, hat⟩ := issue_spec (m := m) hi.cap (by omega)
    exact hi.grow ho (by omega) (by omega) hrecv fun k hk => by rw [hat, if_neg (by omega)]
  | merge other held => exact hi.joined hok hs
  | reconnect otherwanted otherissued held => exact hi.joined hok hs
  | revoke =>
    obtain ⟨c, hc, rfl⟩ := map_eq_some_iff.mp hs
    exact hi.revoke hok hc
  | tell =>
    obtain ⟨hnew, ⟨⟩⟩ := ite_none_right_eq_some.mp hs
    exact hi.tell hnew
  | receive =>
    cases hd : s.down with
    | nil =>
      rw [Caps.step, hd] at hs
      nomatch hs
    | cons g down =>
      rw [Caps.step, hd] at hs
      cases hs
      exact hi.receive hd
  | ack keep =>
    cases hs
    exact hi.ack keep
  | confirm =>
    cases hu : s.up with
    | nil =>
      rw [Caps.step, hu] at hs
      nomatch hs
    | cons a up =>
      rw [Caps.step, hu] at hs
      obtain ⟨p, hp, rfl⟩ := map_eq_some_iff.mp hs
      obtain ⟨r, c, hconf, hi', -⟩ := hi.confirm hu
      cases hp.symm.trans hconf
      exact hi'

end

end steps

/-! ### What is issued bounds what is held -/

theorem reach_inv {want : Mask} {s : Sys} (hr : Reach step Numbered (start want) s) : Inv s :=
  hr.inv Inv (inv_start want) fun _ _ _ hi hok hs => hi.step hok hs

theorem held_within {s : Sys} (hi : Inv s) (hseen : s.revoked ≤ s.client.seq) :
    Within s.client.held (gather s.cap.at' s.cap.lastRecv (s.cap.lastSent + 1 - s.cap.lastRecv)) := by
  have hrecv : s.cap.lastRecv ≤ s.client.seq := hi.recv.trans (max_le le_rfl hseen)
  have hin : ∀ k, s.client.seq ≤ k → k ≤ s.cap.lastSent →
      Within (s.cap.at' k) (gather s.cap.at' s.cap.lastRecv (s.cap.lastSent + 1 - s.cap.lastRecv)) :=
    fun k hlow hhigh => within_gather_of_mem (hrecv.trans hlow) (by omega)
  have hfold : ∀ stale : List (ℕ × Mask), (∀ e ∈ stale, e ∈ s.client.stale) →
      Within (stale.foldr (fun e m => e.2 ||| m) s.client.caps)
        (gather s.cap.at' s.cap.lastRecv (s.cap.lastSent + 1 - s.cap.lastRecv)) := by
    intro stale hsub
    induction stale with
    | nil => exact (hi.caps hseen).trans (hin _ le_rfl (hi.seen.trans hi.told))
    | cons e stale ih =>
      obtain ⟨hnew, hsent, hbound⟩ := hi.stale e (hsub e mem_cons_self)
      exact or_within.mpr ⟨(hbound (hseen.trans_lt hnew)).trans (hin _ hnew.le hsent),
        ih fun e' he' => hsub e' (mem_cons_of_mem _ he')⟩
  exact hfold _ fun _ he => he

/-- **What is issued bounds what the client holds**, once it has seen a grant from the last revoke on; what is confirmed is
issued, and an acknowledgement takes nothing out of what is issued that is not returned. -/
theorem held_issued (want : Mask) {s : Sys} (hr : Reach step Numbered (start want) s) :
    ∃ issued, s.cap.issued = some issued ∧ (s.revoked ≤ s.client.seq → Within s.client.held issued) ∧
      Within s.cap.confirmed issued ∧
      ∀ seq caps up, s.up = (seq, caps) :: up → ∃ r c after,
        s.cap.confirmReceipt seq caps = some (r, c) ∧ c.issued = some after ∧ r ||| after = issued := by
  have hi := reach_inv hr
  have hissued : s.cap.issued = some (gather s.cap.at' s.cap.lastRecv (s.cap.lastSent + 1 - s.cap.lastRecv)) := by
    rw [issued, if_neg hi.room.ne]
  have hle := hi.cap.le
  refine ⟨_, hissued, held_within hi, within_gather_of_mem le_rfl (by omega), fun seq caps up hu => ?_⟩
  obtain ⟨r, c, hconf, -, before, after, hbefore, hafter, hor⟩ := hi.confirm hu
  cases hissued.symm.trans hbefore
  exact ⟨r, c, after, hconf, hafter, hor⟩

/-- A grant to read, one to read and write that the client tells of, and a third on its way that takes the write back. -/
def threeGrants : List Act :=
  [.issue 4, .tell, .issue 12, .tell, .receive, .receive, .ack 12, .issue 4, .tell]

theorem held_issued_three : ∃ s, exec step Numbered threeGrants (start 0) = some s ∧
    ∃ issued, s.cap.issued = some issued ∧ (s.revoked ≤ s.client.seq → Within s.client.held issued) ∧
      Within s.cap.confirmed issued ∧
      ∀ seq caps up, s.up = (seq, caps) :: up → ∃ r c after,
        s.cap.confirmReceipt seq caps = some (r, c) ∧ c.issued = some after ∧ r ||| after = issued := by
  obtain ⟨s, hs⟩ : ∃ s, exec step Numbered threeGrants (start 0) = some s := isSome_iff_exists.mp (by decide +kernel)
  exact ⟨s, hs, held_issued 0 (reach_of_exec hs)⟩

theorem reach_issues : ∀ n, n < 2 ^ 32 → ∃ s, Reach step anyAct (start 0) s ∧ s.cap.lastSent = n
  | 0, _ => ⟨_, .init, rfl⟩
  | n + 1, hn => by
    obtain ⟨s, hr, hs⟩ := reach_issues n (by omega)
    refine ⟨_, hr.step (.issue 0) trivial rfl, ?_⟩
    change (s.cap.lastSent + 1) % 2 ^ 32 = n + 1
    rw [hs, Nat.mod_eq_of_lt hn]

/-- The state after some actions. -/
def after (acts : List Act) : Sys := (exec step anyAct acts (start 0)).getD (start 0)

/-- **Where more is held than issued, and more is returned than given up**: a revoke takes back from the MDS's books what
the client still holds; an acknowledgement of the second of two grants returns what was in both; and from the greatest
number on what is issued is not found any more. -/
theorem caps_unbound :
    (Reach step anyAct (start 0) (after [.issue 4, .tell, .receive, .revoke]) ∧
      (after [.issue 4, .tell, .receive, .revoke]).client.held = 4 ∧
      (after [.issue 4, .tell, .receive, .revoke]).cap.issued = some 0) ∧
    (Reach step anyAct (start 0) (after [.issue 4, .tell, .issue 12, .tell, .receive, .receive, .ack 12]) ∧
      (after [.issue 4, .tell, .issue 12, .tell, .receive, .receive, .ack 12]).client.held = 12 ∧
      ((after [.issue 4, .tell, .issue 12, .tell, .receive, .receive, .ack 12]).cap.confirmReceipt 2 12).map Prod.fst =
        some 4) ∧
    ∃ s, Reach step anyAct (start 0) s ∧ s.cap.issued = none := by
  have hrevoke : exec step anyAct [.issue 4, .tell, .receive, .revoke] (start 0) =
      some (after [.issue 4, .tell, .receive, .revoke]) := by decide +kernel
  have hagain : exec step anyAct [.issue 4, .tell, .issue 12, .tell, .receive, .receive, .ack 12] (start 0) =
      some (after [.issue 4, .tell, .issue 12, .tell, .receive, .receive, .ack 12]) := by decide +kernel
  refine ⟨⟨reach_of_exec hrevoke, ?_, ?_⟩, ⟨reach_of_exec hagain, ?_, ?_⟩, ?_⟩
  · decide +kernel
  · decide +kernel
  · decide +kernel
  · decide +kernel
  · obtain ⟨s, hr, hs⟩ := reach_issues (2 ^ 32 - 1) (by decide)
    exact ⟨s, hr, if_pos hs⟩

end Caps
end Mds
end Ceph
