/-
# When a peer has everything

The primary takes an object off `peer_missing[peer]` when it sends the push, and
keeps in `pushing` whom each object is being pushed to. A peer is up to date when
a push has been acknowledged and nothing is missing from it: while another push
to it is on its way, that is too soon.

The pushes a step sends are those it enters in `pushing`. A replica that gets a
push it needs applies it and replies; pushes and replies arrive in any order.
-/
import Ceph.Osd.Complete

namespace Ceph
namespace Osd
namespace Recovery

open List Option Function

/-! ### The primary and its replicas -/

/-- The primary's PG, the pushes and the replies on their way, the pushes that have been acknowledged, and what each
replica lacks. -/
structure Cluster where
  pg : PG
  pushes : List (ℕ × ℕ)
  replies : List (ℕ × ℕ)
  acked : List (ℕ × ℕ)
  lacks : ℕ → List ℕ

/-- What can happen: something else at the primary, a push arrives at a replica, or a reply at the primary. -/
inductive CAct
  | primary (a : Act)
  | push (o peer : ℕ)
  | reply (o peer : ℕ)

/-- The pushes that a step has sent. -/
def sent (pg pg' : PG) : List (ℕ × ℕ) := pg'.pushing.filter (· ∉ pg.pushing)

/-- The PG does not peer again, and is the primary's; the replies come over the network. -/
def Act.local : Act → Bool
  | .peer _ | .subOpModify _ _ | .subOpPushReply _ _ => false
  | _ => true

def cstep (c : Cluster) : CAct → Option Cluster
  | .primary a =>
    if a.local then (step c.pg a).map fun pg => { c with pg, pushes := c.pushes ++ sent c.pg pg } else none
  | .push o peer =>
    if (o, peer) ∈ c.pushes then
      -- a replica that is not missing the object does not reply
      if o ∈ c.lacks peer then
        some { c with
          pushes := c.pushes.erase (o, peer), replies := (o, peer) :: c.replies
          lacks := Function.update c.lacks peer ((c.lacks peer).filter (· ≠ o)) }
      else some { c with pushes := c.pushes.erase (o, peer) }
    else none
  | .reply o peer =>
    if (o, peer) ∈ c.replies then
      (step c.pg (.subOpPushReply o peer)).map fun pg =>
        { c with
          pg, pushes := c.pushes ++ sent c.pg pg, replies := c.replies.erase (o, peer), acked := (o, peer) :: c.acked }
    else none

/-- After peering: the replicas lack what peering has found. -/
def cstart (p : Peered) : Cluster := ⟨p.toPG, [], [], [], fun q => (p.peerMissing q).map Prod.fst⟩

/-- A reply from a peer that nothing more is missing from is to the last push to it. -/
def Last (c : Cluster) : CAct → Prop
  | .reply o peer => c.pg.peerMissing peer = [] → ∀ x ∈ c.pg.pushing, x.2 = peer → x.1 = o
  | _ => True

instance (c : Cluster) : ∀ a, Decidable (Last c a)
  | .primary _ => isTrue trivial
  | .push _ _ => isTrue trivial
  | .reply o peer =>
    inferInstanceAs (Decidable (c.pg.peerMissing peer = [] → ∀ x ∈ c.pg.pushing, x.2 = peer → x.1 = o))

/-! ### What is pushed -/

variable {pg pg' pg'' : PG}

theorem Missing.eq_nil_iff {m : Missing} : m = [] ↔ ∀ o, m.has o = false := by
  constructor
  · rintro rfl o
    rfl
  · intro h
    refine eq_nil_iff_forall_not_mem.mpr fun p hp => ?_
    have hhas := Missing.has_iff.mpr ⟨p, hp, rfl⟩
    exact Bool.false_ne_true ((h p.1).symm.trans hhas)

/-- Objects that were missing from peers are being pushed to them. -/
structure Pushed (pg pg' : PG) (new : List (ℕ × ℕ)) : Prop where
  whoami : pg'.whoami = pg.whoami
  peers : pg'.peers = pg.peers
  pushing : pg'.pushing = new ++ pg.pushing
  nodup : new.Nodup
  fresh : ∀ x ∈ new, (pg.peerMissing x.2).has x.1 = true
  missing : ∀ p o, (pg'.peerMissing p).has o = true ↔ (pg.peerMissing p).has o = true ∧ (o, p) ∉ new
  uptodate : ∀ p ∈ pg'.uptodate, p ∈ pg.uptodate ∨ p = pg.whoami
  kept : pg.uptodate ⊆ pg'.uptodate
  clean : pg'.clean = true → pg.clean = true ∨ pg'.isAllUptodate = true
  active : pg'.active = pg.active

theorem Pushed.idle (hw : pg'.whoami = pg.whoami) (hps : pg'.peers = pg.peers) (hpush : pg'.pushing = pg.pushing)
    (hm : pg'.peerMissing = pg.peerMissing) (hu : ∀ p ∈ pg'.uptodate, p ∈ pg.uptodate ∨ p = pg.whoami) (hk : pg.uptodate ⊆ pg'.uptodate)
    (hc : pg'.clean = true → pg.clean = true ∨ pg'.isAllUptodate = true) (ha : pg'.active = pg.active) :
    Pushed pg pg' [] where
  whoami := hw
  peers := hps
  pushing := hpush
  nodup := nodup_nil
  fresh := nofun
  missing p o := by simp [hm]
  uptodate := hu
  kept := hk
  clean := hc
  active := ha

/-- What the pushes go by. -/
def PG.tracked (pg : PG) :=
  (pg.whoami, pg.peers, pg.pushing, pg.peerMissing, pg.uptodate, pg.clean, pg.active)

theorem Pushed.same (h : pg'.tracked = pg.tracked) : Pushed pg pg' [] := by
  simp only [PG.tracked, Prod.mk.injEq] at h
  obtain ⟨hw, hps, hpush, hm, hu, hc, ha⟩ := h
  exact .idle hw hps hpush hm (fun p hp => .inl (hu ▸ hp)) hu.ge (fun hc' => .inl (hc ▸ hc')) ha

theorem Pushed.refl (pg : PG) : Pushed pg pg [] :=
  .same rfl

theorem Pushed.trans {new new' : List (ℕ × ℕ)} (h : Pushed pg pg' new) (h' : Pushed pg' pg'' new')
    (hc : pg'.clean = pg.clean) : Pushed pg pg'' (new' ++ new) where
  whoami := h'.whoami.trans h.whoami
  peers := h'.peers.trans h.peers
  pushing := by rw [h'.pushing, h.pushing, List.append_assoc]
  nodup := by
    refine h'.nodup.append h.nodup fun x hx' hx => ?_
    exact ((h.missing x.2 x.1).mp (h'.fresh x hx')).2 hx
  fresh x hx := by
    rcases mem_append.mp hx with hx | hx
    · exact ((h.missing x.2 x.1).mp (h'.fresh x hx)).1
    · exact h.fresh x hx
  missing p o := by
    rw [h'.missing, h.missing, mem_append, not_or, and_assoc, and_comm (b := (o, p) ∉ new')]
  uptodate p hp := by
    rcases h'.uptodate p hp with hp | hp
    · exact h.uptodate p hp
    · exact .inr (hp.trans h.whoami)
  kept := h.kept.trans h'.kept
  clean hcl := by
    rcases h'.clean hcl with hcl | hall
    · exact .inl (hc ▸ hcl)
    · exact .inr hall
  active := h'.active.trans h.active

variable {o : ℕ}

theorem push_pushed {p : ℕ} (hs : push o p pg = some pg') : ∃ new, Pushed pg pg' new ∧ pg'.clean = pg.clean := by
  unfold push at hs
  split_ifs at hs with hprim hhas
  · cases hs
    refine ⟨[(o, p)], ⟨rfl, rfl, rfl, nodup_singleton _, forall_mem_singleton.mpr hhas, fun q o' => ?_,
      fun _ h => .inl h, Finset.Subset.refl _, .inl, rfl⟩, rfl⟩
    rw [mem_singleton, Prod.mk.injEq]
    dsimp only
    by_cases hq : q = p
    · subst hq
      rw [update_self, Missing.has_iff, Missing.has_iff]
      simp only [Missing.mem_got, and_true]
      constructor
      · rintro ⟨x, ⟨hx, hne⟩, rfl⟩
        exact ⟨⟨x, hx, rfl⟩, hne⟩
      · rintro ⟨⟨x, hx, rfl⟩, hne⟩
        exact ⟨x, ⟨hx, hne⟩, rfl⟩
    · rw [update_of_ne hq]
      simp [hq]
  · cases hs
    exact ⟨[], .refl pg, rfl⟩

theorem pushMissing_pushed : ∀ (ps : List ℕ) {pg pg' : PG}, pushMissing o ps pg = some pg' →
    ∃ new, Pushed pg pg' new ∧ pg'.clean = pg.clean
  | [], pg, pg', hs => by
    cases hs
    exact ⟨[], .refl pg, rfl⟩
  | p :: ps, pg, pg', hs => by
    rw [pushMissing] at hs
    split_ifs at hs
    · obtain ⟨q, hq, hs⟩ := bind_eq_some_iff.mp hs
      obtain ⟨new, h, hc⟩ := push_pushed hq
      obtain ⟨new', h', hc'⟩ := pushMissing_pushed ps hs
      exact ⟨new' ++ new, h.trans h' hc, hc'.trans hc⟩
    · exact pushMissing_pushed ps hs

theorem doPeerRecovery_pushed (hs : doPeerRecovery pg = some pg') : ∃ new, Pushed pg pg' new := by
  unfold doPeerRecovery at hs
  split at hs
  · cases hs
    split_ifs with hall
    · exact ⟨[], .idle rfl rfl rfl rfl (fun _ h => .inl h) (Finset.Subset.refl _) (fun _ => .inr hall) rfl⟩
    · exact ⟨[], .refl pg⟩
  · obtain ⟨q, hq, hs⟩ := bind_eq_some_iff.mp hs
    obtain ⟨new, h, hc⟩ := push_pushed hq
    obtain ⟨new', h', -⟩ := pushMissing_pushed _ hs
    exact ⟨new' ++ new, h.trans h' hc⟩

variable {busy : Bool}

/-- A PG that is not complete itself pushes nothing. -/
theorem doRecovery_behind (hup : pg.isUptodate = false) (hs : doRecovery busy pg = some pg') :
    Pushed pg pg' [] := by
  have hno : ¬ pg.isUptodate = true := Bool.eq_false_iff.mp hup
  unfold doRecovery at hs
  split_ifs at hs with hbusy
  · cases hs
    exact .refl pg
  · obtain ⟨r, -, hs⟩ := bind_eq_some_iff.mp hs
    dsimp only at hs
    split at hs
    · unfold pull at hs
      split_ifs at hs
      cases hs
      exact .same rfl
    · have hme : ∀ p ∈ insert pg.whoami pg.uptodate, p ∈ pg.uptodate ∨ p = pg.whoami := fun p hp =>
        (Finset.mem_insert.mp hp).symm
      split_ifs at hs with hpull hdone hall
      · cases hs
        exact .same rfl
      · cases hs
        exact .idle rfl rfl rfl rfl hme (Finset.subset_insert _ _) (fun _ => .inr hall) rfl
      · cases hs
        exact .idle rfl rfl rfl rfl hme (Finset.subset_insert _ _) .inl rfl

/-- **`do_recovery`** pushes objects that are missing from peers. -/
theorem doRecovery_pushed (hs : doRecovery busy pg = some pg') : ∃ new, Pushed pg pg' new := by
  by_cases hup : pg.isUptodate = true
  · unfold doRecovery at hs
    split_ifs at hs
    · cases hs
      exact ⟨[], .refl pg⟩
    · exact doPeerRecovery_pushed hs
  · exact ⟨[], doRecovery_behind (Bool.eq_false_iff.mpr hup) hs⟩

variable {e : Entry} {trimTo : EVersion}

theorem modify_idle (hs : modify e trimTo pg = some pg') : Pushed pg pg' [] := by
  obtain ⟨q, hq, hs⟩ := bind_eq_some_iff.mp hs
  obtain ⟨-, ⟨⟩⟩ := ite_none_right_eq_some.mp hs
  obtain ⟨-, hq⟩ := ite_none_right_eq_some.mp hq
  dsimp only at hq
  split_ifs at hq
  · obtain ⟨r, -, rfl⟩ := map_eq_some_iff.mp hq
    exact .same rfl
  · cases hq
    exact .same rfl

theorem received_idle (hs : received o pg = some pg') : Pushed pg pg' [] ∧ pg'.clean = pg.clean := by
  obtain ⟨i, -, hs⟩ := bind_eq_some_iff.mp hs
  obtain ⟨-, ⟨⟩⟩ := ite_none_left_eq_some.mp hs
  exact ⟨.same rfl, rfl⟩

theorem subOpPush_pushed {v : EVersion} (hs : subOpPush o v busy pg = some pg') :
    ∃ new, Pushed pg pg' new := by
  unfold subOpPush at hs
  split at hs
  · cases hs
    exact ⟨[], .refl pg⟩
  · obtain ⟨-, hs⟩ := ite_none_right_eq_some.mp hs
    obtain ⟨q, hq, hs⟩ := bind_eq_some_iff.mp hs
    obtain ⟨h, hc⟩ := received_idle hq
    split_ifs at hs
    · obtain ⟨u, hu, hs⟩ := bind_eq_some_iff.mp hs
      obtain ⟨new, h', hc'⟩ := pushMissing_pushed _ hu
      obtain ⟨new', h''⟩ := doRecovery_pushed hs
      exact ⟨_, (h.trans h' hc).trans h'' (hc'.trans hc)⟩
    · cases hs
      exact ⟨[], h⟩

theorem opModify_pushed (hs : opModify e trimTo pg = some pg') : ∃ new, Pushed pg pg' new := by
  obtain ⟨q, hq, hs⟩ := bind_eq_some_iff.mp hs
  obtain ⟨new, h, hc⟩ := pushMissing_pushed _ hq
  exact ⟨_, h.trans (modify_idle hs) hc⟩

variable {peer : ℕ}

theorem subOpPull_pushed (hs : subOpPull o peer pg = some pg') : ∃ new, Pushed pg pg' new := by
  unfold subOpPull at hs
  split_ifs at hs
  · obtain ⟨new, h, -⟩ := push_pushed hs
    exact ⟨new, h⟩
  · cases hs
    exact ⟨[], .refl pg⟩

theorem after_pushed {r : Option PG} (hr : ∀ q, r = some q → ∃ new, Pushed pg q new) : ∃ new, Pushed pg (pg.after r) new := by
  cases hq : r with
  | none => exact ⟨[], .same rfl⟩
  | some q => exact hr q hq

/-! ### What the primary keeps track of -/

/-- What has been found missing from a peer is missing yet, being pushed, or acknowledged; a peer that is up to date has
nothing missing and nothing on its way. -/
structure Tracks (p : Peered) (c : Cluster) : Prop where
  whoami : c.pg.whoami = p.whoami
  acting : c.pg.peers = p.peers
  recorded : ∀ q o, (p.peerMissing q).has o = true →
    (c.pg.peerMissing q).has o = true ∨ (o, q) ∈ c.pg.pushing ∨ (o, q) ∈ c.acked
  uptodate : ∀ q ∈ c.pg.uptodate, q ∈ p.peers → c.pg.peerMissing q = [] ∧ ∀ x ∈ c.pg.pushing, x.2 ≠ q
  flight : ∀ x ∈ c.pushes ++ c.replies, x ∈ c.pg.pushing
  once : (c.pushes ++ c.replies).Nodup
  apart : ∀ x ∈ c.pg.pushing, (c.pg.peerMissing x.2).has x.1 = false
  lacks : ∀ q, ∀ o ∈ c.lacks q, (c.pg.peerMissing q).has o = true ∨ (o, q) ∈ c.pushes
  clean : c.pg.clean = true → ∀ q ∈ p.peers, q ∈ c.pg.uptodate
  idle : c.pg.active = false → c.pg.pushing = [] ∧ c.pg.uptodate = ∅ ∧ c.pg.clean = false

variable {p : Peered} {c c' : Cluster}

theorem tracks_start (p : Peered) : Tracks p (cstart p) where
  whoami := rfl
  acting := rfl
  recorded q o h := .inl h
  uptodate := by simp [cstart, Peered.toPG]
  flight := nofun
  once := nodup_nil
  apart := nofun
  lacks q o ho := by
    obtain ⟨x, hx, rfl⟩ := List.mem_map.mp ho
    exact .inl (Missing.has_iff.mpr ⟨x, hx, rfl⟩)
  clean := nofun
  idle _ := ⟨rfl, rfl, rfl⟩

/-- More is pushed. -/
theorem Tracks.pushed (h : Tracks p c) {new : List (ℕ × ℕ)} (hp : Pushed c.pg pg' new) (hpeers : Peers pg')
    (ha : pg'.active = true) : Tracks p { c with pg := pg', pushes := c.pushes ++ new } := by
  have hnew : ∀ x ∈ new, x ∉ c.pg.pushing := fun x hx hold =>
    Bool.false_ne_true ((h.apart x hold).symm.trans (hp.fresh x hx))
  have hpushing : ∀ x, x ∈ pg'.pushing ↔ x ∈ new ∨ x ∈ c.pg.pushing := fun x => by rw [hp.pushing, mem_append]
  refine { whoami := hp.whoami.trans h.whoami, acting := hp.peers.trans h.acting, recorded := ?_, uptodate := ?_,
           flight := ?_, once := ?_, apart := ?_, lacks := ?_, clean := ?_, idle := ?_ }
  · intro q o hrec
    rw [hpushing, hp.missing]
    rcases h.recorded q o hrec with hmiss | hpush | hack
    · by_cases hin : (o, q) ∈ new
      · exact .inr (.inl (.inl hin))
      · exact .inl ⟨hmiss, hin⟩
    · exact .inr (.inl (.inr hpush))
    · exact .inr (.inr hack)
  · intro q hq hmem
    have hold : q ∈ c.pg.uptodate := by
      refine (hp.uptodate q hq).resolve_right fun heq => ?_
      exact (nodup_cons.mp p.nodup).1 (h.whoami ▸ heq ▸ hmem)
    obtain ⟨hnil, hnone⟩ := h.uptodate q hold hmem
    have hno := Missing.eq_nil_iff.mp hnil
    refine ⟨Missing.eq_nil_iff.mpr fun o => Bool.eq_false_iff.mpr fun ho => ?_, fun x hx heq => ?_⟩
    · exact Bool.false_ne_true ((hno o).symm.trans ((hp.missing q o).mp ho).1)
    · rcases (hpushing x).mp hx with hx | hx
      · have hfresh := hp.fresh x hx
        rw [heq, hno] at hfresh
        exact Bool.false_ne_true hfresh
      · exact hnone x hx heq
  · intro x hx
    rw [hpushing]
    rcases mem_append.mp hx with hx | hx
    · rcases mem_append.mp hx with hx | hx
      · exact .inr (h.flight x (mem_append_left _ hx))
      · exact .inl hx
    · exact .inr (h.flight x (mem_append_right _ hx))
  · have hperm : (c.pushes ++ new ++ c.replies).Perm (new ++ (c.pushes ++ c.replies)) := by
      rw [← List.append_assoc]
      exact perm_append_comm.append_right _
    rw [hperm.nodup_iff]
    exact hp.nodup.append h.once fun x hx hold => hnew x hx (h.flight x hold)
  · intro x hx
    refine Bool.eq_false_iff.mpr fun hhas => ?_
    obtain ⟨hold, hnot⟩ := (hp.missing x.2 x.1).mp hhas
    rcases (hpushing x).mp hx with hx | hx
    · exact hnot hx
    · exact Bool.false_ne_true ((h.apart x hx).symm.trans hold)
  · intro q o ho
    rw [hp.missing, mem_append]
    rcases h.lacks q o ho with hmiss | hpush
    · by_cases hin : (o, q) ∈ new
      · exact .inr (.inr hin)
      · exact .inl ⟨hmiss, hin⟩
    · exact .inr (.inl hpush)
  · intro hcl q hq
    rcases hp.clean hcl with hold | hall
    · exact hp.kept (h.clean hold q hq)
    · refine hpeers.all_uptodate hall q (mem_cons_of_mem _ ?_)
      rw [hp.peers, h.acting]
      exact hq
  · intro hf
    nomatch ha.symm.trans hf

theorem sent_eq {new kept : List (ℕ × ℕ)} (hpush : pg'.pushing = new ++ kept) (hnew : ∀ x ∈ new, x ∉ pg.pushing)
    (hkept : ∀ x ∈ kept, x ∈ pg.pushing) : sent pg pg' = new := by
  rw [sent, hpush, filter_append, filter_eq_self.mpr fun x hx => decide_eq_true (hnew x hx),
    filter_eq_nil_iff.mpr fun x hx => by simpa using hkept x hx, append_nil]

/-- A push arrives. -/
theorem Tracks.push (h : Tracks p c) (hs : cstep c (.push o peer) = some c') : Tracks p c' := by
  obtain ⟨hin, hs⟩ := ite_none_right_eq_some.mp hs
  have hother : ∀ q o', (o', q) ∈ c.pushes → ¬ (q = peer ∧ o' = o) → (o', q) ∈ c.pushes.erase (o, peer) := by
    intro q o' hmem hne
    refine (mem_erase_of_ne fun heq => hne ?_).mpr hmem
    cases heq
    exact ⟨rfl, rfl⟩
  split_ifs at hs with hlacks
  · cases hs
    have hperm : (c.pushes.erase (o, peer) ++ (o, peer) :: c.replies).Perm (c.pushes ++ c.replies) :=
      perm_middle.trans ((perm_cons_erase hin).symm.append_right _)
    refine { h with flight := fun x hx => h.flight x (hperm.subset hx), once := hperm.nodup_iff.mpr h.once,
                    lacks := fun q o' ho' => ?_ }
    dsimp only at ho'
    by_cases hq : q = peer
    · subst hq
      rw [update_self, mem_filter, decide_eq_true_eq] at ho'
      exact (h.lacks q o' ho'.1).imp_right fun hmem => hother q o' hmem fun heq => ho'.2 heq.2
    · rw [update_of_ne hq] at ho'
      exact (h.lacks q o' ho').imp_right fun hmem => hother q o' hmem fun heq => hq heq.1
  · cases hs
    have hsub : (c.pushes.erase (o, peer) ++ c.replies).Sublist (c.pushes ++ c.replies) :=
      erase_sublist.append_right _
    refine { h with flight := fun x hx => h.flight x (hsub.subset hx), once := h.once.sublist hsub,
                    lacks := fun q o' ho' => ?_ }
    refine (h.lacks q o' ho').imp_right fun hmem => hother q o' hmem ?_
    rintro ⟨rfl, rfl⟩
    exact hlacks ho'

/-! ### Replies and activation -/

/-- **A reply to a push.** The primary crosses the push off, and if nothing more is missing from the peer and nothing else
on its way to it, the peer is up to date. -/
theorem Tracks.reply (h : Tracks p c) (hin : (o, peer) ∈ c.replies)
    (hlast : Last c (.reply o peer)) (hact : c.pg.active = true) (hs : subOpPushReply o peer c.pg = some pg')
    (hpeers' : Peers pg') :
    Tracks p { c with
      pg := pg', pushes := c.pushes ++ sent c.pg pg', replies := c.replies.erase (o, peer), acked := (o, peer) :: c.acked } := by
  have hpush : (o, peer) ∈ c.pg.pushing := h.flight _ (mem_append_right _ hin)
  obtain ⟨u, hu⟩ : ∃ u, u = if c.pg.peerMissing peer = [] then insert peer c.pg.uptodate else c.pg.uptodate := ⟨_, rfl⟩
  obtain ⟨pg1, hpg1⟩ : ∃ pg1, pg1 = { c.pg with pushing := c.pg.pushing.filter (· ≠ (o, peer)), uptodate := u } := ⟨_, rfl⟩
  obtain ⟨new, hnew⟩ : ∃ new, Pushed pg1 pg' new := by
    unfold subOpPushReply at hs
    rw [if_pos (contains_iff_mem.mpr hpush)] at hs
    dsimp only at hs
    rw [← hu] at hs
    split_ifs at hs
    · cases hs
      rw [hpg1]
      exact ⟨[], .refl _⟩
    · rw [hpg1]
      exact doPeerRecovery_pushed hs
  -- crossing the push off
  have hkeep : ∀ x, x ∈ pg1.pushing ↔ x ∈ c.pg.pushing ∧ x ≠ (o, peer) := fun x => by
    rw [hpg1, mem_filter, decide_eq_true_eq]
  have hgrow : c.pg.uptodate ⊆ u := by
    rw [hu]
    split_ifs
    · exact Finset.subset_insert _ _
    · exact Finset.Subset.refl _
  have hmissing : pg1.peerMissing = c.pg.peerMissing := by rw [hpg1]
  have hflight : ∀ x ∈ c.pushes ++ c.replies.erase (o, peer), x ∈ pg1.pushing := by
    intro x hx
    rw [hkeep]
    have hsub : (c.pushes ++ c.replies.erase (o, peer)).Sublist (c.pushes ++ c.replies) :=
      erase_sublist.append_left _
    refine ⟨h.flight x (hsub.subset hx), ?_⟩
    rintro rfl
    obtain ⟨-, hnodup, hdisj⟩ := nodup_append.mp h.once
    rcases mem_append.mp hx with hx | hx
    · exact hdisj _ hx _ hin rfl
    · exact (hnodup.mem_erase_iff.mp hx).1 rfl
  have h1 : Tracks p { c with
      pg := pg1, replies := c.replies.erase (o, peer), acked := (o, peer) :: c.acked } := by
    refine { whoami := hpg1 ▸ h.whoami, acting := hpg1 ▸ h.acting, recorded := fun q o' hrec => ?_, uptodate := fun q hq hmem => ?_,
             flight := hflight, once := h.once.sublist (erase_sublist.append_left _), apart := fun x hx => ?_,
             lacks := fun q o' ho' => ?_, clean := fun hcl q hq => ?_, idle := fun hf => ?_ }
    · dsimp only
      rw [hkeep, hmissing]
      rcases h.recorded q o' hrec with hmiss | hold | hack
      · exact .inl hmiss
      · by_cases heq : (o', q) = (o, peer)
        · exact .inr (.inr (heq ▸ mem_cons_self))
        · exact .inr (.inl ⟨hold, heq⟩)
      · exact .inr (.inr (mem_cons_of_mem _ hack))
    · have hq' : q ∈ u := by rw [hpg1] at hq; exact hq
      rw [hmissing]
      by_cases hold : q ∈ c.pg.uptodate
      · obtain ⟨hnil, hnone⟩ := h.uptodate q hold hmem
        exact ⟨hnil, fun x hx => hnone x ((hkeep x).mp hx).1⟩
      · rw [hu] at hq'
        split_ifs at hq' with hnil
        · obtain rfl := (Finset.mem_insert.mp hq').resolve_right hold
          refine ⟨hnil, fun x hx heq => ?_⟩
          obtain ⟨hx, hne⟩ := (hkeep x).mp hx
          exact hne (Prod.ext (hlast hnil x hx heq) heq)
        · exact absurd hq' hold
    · dsimp only
      rw [hmissing]
      exact h.apart x ((hkeep x).mp hx).1
    · dsimp only
      rw [hmissing]
      exact h.lacks q o' ho'
    · have hcl' : c.pg.clean = true := by rw [hpg1] at hcl; exact hcl
      rw [hpg1]
      exact hgrow (h.clean hcl' q hq)
    · rw [hpg1] at hf
      nomatch hact.symm.trans hf
  have hfresh : ∀ x ∈ new, x ∉ c.pg.pushing := fun x hx hold => by
    have hhas := hnew.fresh x hx
    rw [hmissing, h.apart x hold] at hhas
    exact Bool.false_ne_true hhas
  rw [sent_eq hnew.pushing hfresh fun x hx => ((hkeep x).mp hx).1]
  exact h1.pushed hnew hpeers' (hnew.active.trans (by rw [hpg1]; exact hact))

theorem initPointers_idle (hs : initPointers busy pg = some pg') : Pushed pg pg' [] := by
  unfold initPointers at hs
  split_ifs at hs with heq
  · cases hs
    exact .same rfl
  · obtain ⟨i, -, hs⟩ := bind_eq_some_iff.mp hs
    dsimp only at hs
    split_ifs at hs
    · have hup : PG.isUptodate { pg with completeTo := some i, pointed := true, requestedTo := some i } = false :=
        decide_eq_false fun h => heq h.symm
      have hidle := doRecovery_behind hup hs
      exact ⟨hidle.whoami, hidle.peers, hidle.pushing, hidle.nodup, hidle.fresh, hidle.missing, hidle.uptodate, hidle.kept,
        hidle.clean, hidle.active⟩
    · cases hs
      exact .same rfl

/-- **Activation.** The primary goes by what peering has found. -/
theorem Tracks.activate (h : Tracks p c) (ha : c.pg.active = false) {hack : Bool}
    (hs : activate hack busy c.pg = some pg') (hpeers' : Peers pg') :
    Tracks p { c with pg := pg', pushes := c.pushes ++ sent c.pg pg' } := by
  obtain ⟨hpush0, hup0, hclean0⟩ := h.idle ha
  obtain ⟨-, hs⟩ := ite_none_right_eq_some.mp hs
  obtain ⟨pg1, hpg1, hs⟩ := bind_eq_some_iff.mp hs
  have hi := initPointers_idle hpg1
  have hact : pg1.active = true := hi.active
  have hpush1 : pg1.pushing = [] := hi.pushing.trans hpush0
  have hme : ∀ q ∈ pg1.uptodate, q = p.whoami := fun q hq => by
    rcases hi.uptodate q hq with hq | hq
    · have hq' : q ∈ c.pg.uptodate := hq
      rw [hup0] at hq'
      exact absurd hq' (Finset.notMem_empty q)
    · exact hq.trans h.whoami
  have hmissing : ∀ q o, (pg1.peerMissing q).has o = true ↔ (c.pg.peerMissing q).has o = true := fun q o => by
    rw [hi.missing]
    simp
  have hself : p.whoami ∉ p.peers := (nodup_cons.mp p.nodup).1
  -- before the replicas are looked at, the primary is clean only if it is alone
  have hbase : ∀ u : Finset ℕ, (∀ q ∈ u, q ∈ p.peers → pg1.peerMissing q = []) → (pg1.clean = true → p.peers = []) →
      Tracks p { c with pg := { pg1 with uptodate := u } } := by
    intro u hu halone
    refine { whoami := hi.whoami.trans h.whoami, acting := hi.peers.trans h.acting, recorded := fun q o hrec => ?_,
             uptodate := fun q hq hmem => ⟨hu q hq hmem, ?_⟩, flight := fun x hx => ?_, once := h.once, apart := ?_,
             lacks := fun q o ho => ?_, clean := fun hcl q hq => ?_, idle := fun hf => nomatch hact.symm.trans hf }
    · rcases h.recorded q o hrec with hmiss | hold | hack
      · exact .inl ((hmissing q o).mpr hmiss)
      · rw [hpush0] at hold
        nomatch hold
      · exact .inr (.inr hack)
    · dsimp only
      rw [hpush1]
      nofun
    · have hx' := h.flight x hx
      rw [hpush0] at hx'
      nomatch hx'
    · dsimp only
      rw [hpush1]
      nofun
    · exact (h.lacks q o ho).imp_left (hmissing q o).mpr
    · rw [halone hcl] at hq
      nomatch hq
  have halone : pg1.clean = true → p.peers = [] := by
    intro hcl
    rcases hi.clean hcl with hold | hall
    · have hold' : c.pg.clean = true := hold
      rw [hclean0] at hold'
      nomatch hold'
    · have hcard : pg1.uptodate.card = (pg1.whoami :: pg1.peers).length := of_decide_eq_true hall
      have hle : pg1.uptodate.card ≤ 1 := Finset.card_le_one.mpr fun a ha b hb => (hme a ha).trans (hme b hb).symm
      have hpeers1 : pg1.peers = p.peers := hi.peers.trans h.acting
      rw [hpeers1, length_cons] at hcard
      exact length_eq_zero_iff.mp (by omega)
  have hsent : ∀ {pg2 : PG} {new : List (ℕ × ℕ)}, Pushed pg2 pg' new → pg2.pushing = [] → sent c.pg pg' = new := by
    intro pg2 new hnew hnil
    have hall : pg'.pushing = new ++ [] := hnew.pushing.trans (by rw [hnil])
    refine sent_eq hall (fun x _ => ?_) nofun
    rw [hpush0]
    exact not_mem_nil
  split_ifs at hs
  · -- the primary looks who is up to date
    obtain ⟨u, hu⟩ : ∃ u : Finset ℕ, u = (if pg1.isUptodate then {pg1.whoami} else ∅) ∪
      (pg1.peers.filter fun q => pg1.peerMissing q = []).toFinset := ⟨_, rfl⟩
    have hin : ∀ q ∈ u, q ∈ p.peers → pg1.peerMissing q = [] := by
      intro q hq hmem
      rw [hu] at hq
      rcases Finset.mem_union.mp hq with hq | hq
      · split_ifs at hq
        · have heq : q = p.whoami := (Finset.mem_singleton.mp hq).trans (hi.whoami.trans h.whoami)
          exact absurd (heq ▸ hmem) hself
        · exact absurd hq (Finset.notMem_empty q)
      · exact of_decide_eq_true (mem_filter.mp (List.mem_toFinset.mp hq)).2
    obtain ⟨new, hnew⟩ : ∃ new, Pushed { pg1 with uptodate := u } pg' new := by
      unfold startUp at hs
      dsimp only at hs
      rw [← hu] at hs
      split_ifs at hs with hall
      · cases hs
        exact ⟨[], .idle rfl rfl rfl rfl (fun _ h => .inl h) (Finset.Subset.refl _) (fun _ => .inr hall) rfl⟩
      · exact doRecovery_pushed hs
    rw [hsent hnew hpush1]
    exact (hbase u hin halone).pushed hnew hpeers' (hnew.active.trans hact)
  · cases hs
    rw [hsent (.refl pg') hpush1]
    have hb := hbase pg'.uptodate (fun q hq hmem => absurd (hme q hq ▸ hmem) hself) halone
    exact hb.pushed (.refl pg') hpeers' hact

theorem Tracks.failed (h : Tracks p c) {replies acked : List (ℕ × ℕ)} (hr : replies.Sublist c.replies)
    (ha : ∀ x ∈ c.acked, x ∈ acked) :
    Tracks p ⟨{ c.pg with ok := false }, c.pushes ++ sent c.pg { c.pg with ok := false }, replies, acked, c.lacks⟩ := by
  have hnone : sent c.pg { c.pg with ok := false } = [] := by
    have hsame : PG.pushing { c.pg with ok := false } = [] ++ c.pg.pushing := rfl
    exact sent_eq hsame nofun fun x hx => hx
  rw [hnone, append_nil]
  have hsub : (c.pushes ++ replies).Sublist (c.pushes ++ c.replies) := hr.append_left _
  exact { h with
    recorded := fun q o hrec => (h.recorded q o hrec).imp_right fun hx => hx.imp_right (ha _)
    flight := fun x hx => h.flight x (hsub.subset hx), once := h.once.sublist hsub }

/-! ### Runs -/

/-- What holds over runs from a peered PG. -/
structure Sound (p : Peered) (c : Cluster) : Prop where
  inv : Inv c.pg
  peers : Peers c.pg
  tracks : Tracks p c

/-- A step at the primary, once it is active, pushes objects that are missing from peers. -/
theorem step_pushed {a : Act} (hl : a.local = true) (ha : pg.active = true) (hs : step pg a = some pg') :
    (∃ new, Pushed pg pg' new) ∧ pg'.active = true := by
  have hpushed : ∃ new, Pushed pg pg' new := by
    obtain ⟨-, hs⟩ := ite_none_left_eq_some.mp hs
    cases a with
    | peer p => nomatch hl
    | activate hack busy =>
      cases hs
      refine after_pushed fun q hq => ?_
      obtain ⟨⟨hf, -⟩, -⟩ := ite_none_right_eq_some.mp hq
      nomatch ha.symm.trans hf
    | opModify e trimTo =>
      obtain ⟨-, ⟨⟩⟩ := ite_none_right_eq_some.mp hs
      exact after_pushed fun q hq => opModify_pushed hq
    | subOpModify e trimTo => nomatch hl
    | subOpPush o v busy =>
      obtain ⟨-, ⟨⟩⟩ := ite_none_right_eq_some.mp hs
      exact after_pushed fun q hq => subOpPush_pushed hq
    | subOpPushReply o peer => nomatch hl
    | subOpPull o peer =>
      obtain ⟨-, ⟨⟩⟩ := ite_none_right_eq_some.mp hs
      exact after_pushed fun q hq => subOpPull_pushed hq
    | doRecovery busy =>
      obtain ⟨-, ⟨⟩⟩ := ite_none_right_eq_some.mp hs
      exact after_pushed fun q hq => doRecovery_pushed hq
  obtain ⟨new, hnew⟩ := hpushed
  exact ⟨⟨new, hnew⟩, hnew.active.trans ha⟩

theorem Sound.step {a : CAct} (h : Sound p c) (hlast : Last c a) (hs : cstep c a = some c') : Sound p c' := by
  cases a with
  | primary a =>
    obtain ⟨hl, hs⟩ := ite_none_right_eq_some.mp hs
    obtain ⟨pg', hpg, rfl⟩ := map_eq_some_iff.mp hs
    obtain ⟨hi', hp'⟩ := step_inv h.inv h.peers hpg
    refine ⟨hi', hp', ?_⟩
    by_cases ha : c.pg.active = true
    · obtain ⟨⟨new, hnew⟩, ha'⟩ := step_pushed hl ha hpg
      have hfresh : ∀ x ∈ new, x ∉ c.pg.pushing := fun x hx hold =>
        Bool.false_ne_true ((h.tracks.apart x hold).symm.trans (hnew.fresh x hx))
      rw [sent_eq hnew.pushing hfresh fun x hx => hx]
      exact h.tracks.pushed hnew hp' ha'
    · -- only activation is possible yet
      have hoff := Bool.eq_false_iff.mpr ha
      obtain ⟨-, hpg⟩ := ite_none_left_eq_some.mp hpg
      cases a with
      | activate hack busy =>
        cases hpg
        cases hq : activate hack busy c.pg with
        | none => exact h.tracks.failed (.refl _) fun _ hx => hx
        | some q =>
          rw [hq] at hp'
          exact h.tracks.activate hoff hq hp'
      | peer p => nomatch hl
      | subOpModify e trimTo => nomatch hl
      | subOpPushReply o peer => nomatch hl
      | opModify e trimTo => exact absurd (ite_none_right_eq_some.mp hpg).1.1 ha
      | subOpPush o v busy => exact absurd (ite_none_right_eq_some.mp hpg).1 ha
      | subOpPull o peer => exact absurd (ite_none_right_eq_some.mp hpg).1.1 ha
      | doRecovery busy => exact absurd (ite_none_right_eq_some.mp hpg).1.1 ha
  | push o peer =>
    have hpg : c'.pg = c.pg := by
      obtain ⟨-, hs⟩ := ite_none_right_eq_some.mp hs
      split_ifs at hs <;> cases hs <;> rfl
    exact ⟨hpg ▸ h.inv, hpg ▸ h.peers, h.tracks.push hs⟩
  | reply o peer =>
    obtain ⟨hin, hs⟩ := ite_none_right_eq_some.mp hs
    obtain ⟨pg', hpg, rfl⟩ := map_eq_some_iff.mp hs
    obtain ⟨hi', hp'⟩ := step_inv h.inv h.peers hpg
    refine ⟨hi', hp', ?_⟩
    obtain ⟨-, hpg⟩ := ite_none_left_eq_some.mp hpg
    obtain ⟨⟨ha, -⟩, ⟨⟩⟩ := ite_none_right_eq_some.mp hpg
    cases hq : subOpPushReply o peer c.pg with
    | none => exact h.tracks.failed erase_sublist fun _ hx => mem_cons_of_mem _ hx
    | some q =>
      rw [hq] at hp'
      exact h.tracks.reply hin hlast ha hq hp'

theorem Tracks.replicated (h : Tracks p c) {q : ℕ} (hq : q ∈ c.pg.uptodate) (hmem : q ∈ p.peers) :
    (∀ o, (p.peerMissing q).has o = true → (o, q) ∈ c.acked) ∧ c.lacks q = [] := by
  obtain ⟨hnil, hnone⟩ := h.uptodate q hq hmem
  have hno := Missing.eq_nil_iff.mp hnil
  refine ⟨fun o hrec => ?_, eq_nil_iff_forall_not_mem.mpr fun o ho => ?_⟩
  · rcases h.recorded q o hrec with hmiss | hpush | hack
    · exact absurd ((hno o).symm.trans hmiss) Bool.false_ne_true
    · exact absurd rfl (hnone _ hpush)
    · exact hack
  · rcases h.lacks q o ho with hmiss | hpush
    · exact Bool.false_ne_true ((hno o).symm.trans hmiss)
    · exact hnone _ (h.flight _ (mem_append_left _ hpush)) rfl

/-- **What is up to date is acknowledged, and what is clean is replicated**, in every run in which a reply from a peer that
nothing more is missing from is to the last push to it. -/
theorem uptodate_acked (p : Peered) {c : Cluster} (hr : Run.Reach cstep Last (cstart p) c) :
    (∀ q ∈ p.peers, q ∈ c.pg.uptodate → ∀ o, (p.peerMissing q).has o = true → (o, q) ∈ c.acked) ∧
      (c.pg.clean = true → ∀ q ∈ p.peers, c.lacks q = []) := by
  obtain ⟨hi, hp⟩ := peered_inv p
  have h : Sound p c := hr.inv (Sound p) ⟨hi, hp, tracks_start p⟩ fun _ _ _ h hlast hs => h.step hlast hs
  exact ⟨fun q hq hu => (h.tracks.replicated hu hq).1,
    fun hcl q hq => (h.tracks.replicated (h.tracks.clean hcl q hq) hq).2⟩

/-- A primary that is complete, with a replica that two objects are missing from. -/
def twoMissing : Peered where
  primary := true
  whoami := 0
  peers := [1]
  lastUpdate := toLex (1, 2)
  lastComplete := toLex (1, 2)
  log := [⟨.modify, 10, toLex (1, 1)⟩, ⟨.modify, 11, toLex (1, 2)⟩]
  bottom := EVersion.zero
  backlog := false
  completeTo := none
  requestedTo := none
  missing := []
  loc := []
  peerMissing := fun q => if q = 1 then [(10, toLex (1, 1)), (11, toLex (1, 2))] else []
  sorted := by decide
  top := by decide
  le := by decide
  logged := nofun
  nodup := by decide
  own := rfl

/-- The objects are pushed one after the other. -/
def inTurn : List CAct :=
  [.primary (.activate false false), .push 10 1, .reply 10 1, .push 11 1, .reply 11 1]

theorem uptodate_acked_turn : ∃ c, Run.Reach cstep Last (cstart twoMissing) c ∧ c.pg.clean = true ∧
    (∀ q ∈ twoMissing.peers, q ∈ c.pg.uptodate → ∀ o, (twoMissing.peerMissing q).has o = true → (o, q) ∈ c.acked) ∧
      (c.pg.clean = true → ∀ q ∈ twoMissing.peers, c.lacks q = []) := by
  have hrun : ((Run.exec cstep Last inTurn (cstart twoMissing)).map fun c : Cluster => c.pg.clean) = some true := by
    decide +kernel
  obtain ⟨c, hc, hclean⟩ := map_eq_some_iff.mp hrun
  have hr := Run.reach_of_exec hc
  exact ⟨c, hr, hclean, uptodate_acked twoMissing hr⟩

/-- A write pushes the second object while the first is on its way. -/
def writtenMeanwhile : List CAct :=
  [.primary (.activate false false), .primary (.opModify ⟨.modify, 11, toLex (1, 3)⟩ EVersion.zero), .push 10 1, .reply 10 1]

/-- **A peer that is up to date too soon**: the reply to the first push makes it so, and the PG is clean, while the second
object is on its way and the replica lacks it. -/
theorem uptodate_early : ∃ c, Run.Reach cstep Run.anyAct (cstart twoMissing) c ∧ c.pg.ok = true ∧ c.pg.clean = true ∧
    1 ∈ c.pg.uptodate ∧ (twoMissing.peerMissing 1).has 11 = true ∧ (11, 1) ∉ c.acked ∧ c.lacks 1 = [11] := by
  have hrun : ((Run.exec cstep Run.anyAct writtenMeanwhile (cstart twoMissing)).map fun c : Cluster =>
      (c.pg.ok, c.pg.clean, decide (1 ∈ c.pg.uptodate), decide ((11, 1) ∉ c.acked), c.lacks 1)) =
        some (true, true, true, true, [11]) := by
    decide +kernel
  obtain ⟨c, hc, heq⟩ := map_eq_some_iff.mp hrun
  simp only [Prod.mk.injEq, decide_eq_true_eq] at heq
  obtain ⟨hok, hclean, hup, hack, hlacks⟩ := heq
  exact ⟨c, Run.reach_of_exec hc, hok, hclean, hup, by decide, hack, hlacks⟩

end Recovery
end Osd
end Ceph
