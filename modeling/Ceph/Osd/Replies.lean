/-
# Client replies are backed by replicas

In every run of a primary: a client gets the ack of an operation at most once,
after the primary has applied it and every other OSD of the operation has
acked or committed it or has been declared failed; it gets the commit at most
once, after the primary and every other OSD have committed it or been declared
failed; a gather is deleted once, when nobody is waited for any more; and no
assertion fails.

The assertions of `repop_ack` hold because a reply of an OSD that was declared
failed never reaches the group: its process is not the one of the map, and no
reply is in the queue when a map is handled.
-/
import Ceph.Osd.RepGather

namespace Ceph
namespace Osd

open List Option Function

/-! ### What the events mean -/

/-- The gather of `t` is made. -/
def Event.opens (t : ℕ) : Event → Bool
  | .opened t' _ => t' = t
  | _ => false

/-- The gather of `t` is deleted. -/
def Event.deletes (t : ℕ) : Event → Bool
  | .deleted t' _ => t' = t
  | _ => false

/-- The operation of an event. -/
def Event.tid? : Event → Option ℕ
  | .opened t _ | .applied t | .acked t _ | .committed t _ => some t
  | .failed _ => none
  | .ackReply t | .commitReply t | .deleted t _ => some t

/-- What happened since the gather of `t` was made. -/
def sinceOpened (t : ℕ) (log : List Event) : List Event := log.takeWhile fun e => !e.opens t

/-- `o` has committed `t`, or was declared failed. -/
def Safe (log : List Event) (t o : ℕ) : Prop :=
  .committed t o ∈ log ∨ .failed o ∈ sinceOpened t log

/-- What an event needs of the older ones. -/
def Justified (whoami : ℕ) (older : List Event) : Event → Prop
  | .opened t _ => ∀ osds, .opened t osds ∉ older
  | .ackReply t => .ackReply t ∉ older ∧ .applied t ∈ older ∧
      ∃ osds, .opened t osds ∈ older ∧
        ∀ o ∈ osds, o ≠ whoami → .acked t o ∈ older ∨ Safe older t o
  | .commitReply t => .commitReply t ∉ older ∧ .committed t whoami ∈ older ∧
      ∃ osds, .opened t osds ∈ older ∧ ∀ o ∈ osds, o ≠ whoami → Safe older t o
  | .deleted t g => (∀ g', .deleted t g' ∉ older) ∧ g.waitforAck = ∅ ∧ g.waitforCommit = ∅
  | .applied _ | .acked _ _ | .committed _ _ | .failed _ => True

/-- Every event of the log is justified by the ones before it. -/
def Backed (whoami : ℕ) : List Event → Prop
  | [] => True
  | e :: older => Justified whoami older e ∧ Backed whoami older

variable {e : Event}

theorem sinceOpened_cons {t : ℕ} (log : List Event) (he : e.opens t = false) :
    sinceOpened t (e :: log) = e :: sinceOpened t log := by
  simp [sinceOpened, he]

theorem Safe.cons {log : List Event} {t o : ℕ} (h : Safe log t o)
    (he : e.opens t = false) : Safe (e :: log) t o := by
  rcases h with h | h
  · exact .inl (mem_cons_of_mem _ h)
  · exact .inr (by rw [sinceOpened_cons log he]; exact mem_cons_of_mem _ h)

theorem Backed.deletes_le {whoami : ℕ} {t : ℕ} : ∀ {log : List Event}, Backed whoami log →
    log.countP (·.deletes t) ≤ 1
  | [], _ => by simp
  | e :: older, h => by
    have ih := Backed.deletes_le (t := t) h.2
    rw [countP_cons]
    split_ifs with hd
    · have hz : older.countP (·.deletes t) = 0 := by
        rw [countP_eq_zero]
        intro e' he' hd'
        cases e with
        | deleted t1 g1 =>
          cases e' with
          | deleted t2 g2 =>
            simp only [Event.deletes, decide_eq_true_eq] at hd hd'
            subst hd hd'
            exact h.1.1 g2 he'
          | _ => simp [Event.deletes] at hd'
        | _ => simp [Event.deletes] at hd
      omega
    · omega

theorem Backed.opened_unique {whoami t : ℕ} {osds osds' : Finset ℕ} : ∀ {log : List Event},
    Backed whoami log → .opened t osds ∈ log → .opened t osds' ∈ log → osds = osds'
  | [], _, h, _ => by simp at h
  | e :: older, hb, h, h' => by
    rcases mem_cons.mp h with rfl | hm
    · rcases mem_cons.mp h' with he | hm'
      · cases he
        rfl
      · exact absurd hm' (hb.1 osds')
    · rcases mem_cons.mp h' with rfl | hm'
      · exact absurd hm (hb.1 osds)
      · exact Backed.opened_unique hb.2 hm hm'

/-! ### The invariant -/

/-- What the log and the pending callbacks of the store say of the gather of `t`. -/
structure GatherInv (whoami : ℕ) (log : List Event) (calls : List ℕ) (t : ℕ) (g : RepGather) :
    Prop where
  opened : .opened t g.osds ∈ log
  sub : g.waitforAck ⊆ g.waitforCommit
  self : whoami ∉ g.waitforAck
  selfCommit : whoami ∉ g.waitforCommit → .committed t whoami ∈ log
  commit : ∀ o ∈ g.osds, o ≠ whoami → o ∉ g.waitforCommit → Safe log t o
  ack : ∀ o ∈ g.osds, o ≠ whoami → o ∉ g.waitforAck → .acked t o ∈ log ∨ Safe log t o
  applied : g.applied = true → .applied t ∈ log
  unapplied : g.applied = false → whoami ∈ g.waitforCommit ∧ t ∉ calls
  called : t ∈ calls → whoami ∈ g.waitforCommit
  unacked : g.sentAck = false → .ackReply t ∉ log
  unsent : g.sentCommit = false ∧ .commitReply t ∉ log
  kept : ∀ g', .deleted t g' ∉ log

/-- A reply, up to its content. -/
def SubOpReply.key (r : SubOpReply) : ℕ × ℕ × Bool := (r.tid, r.source, r.commit)

/-- The replies in the queue. -/
def queued (q : List Work) : List SubOpReply :=
  q.filterMap fun | .op _ _ => none | .reply r => some r

/-- The replies on their way. -/
structure NetInv (s : PG) : Prop where
  nodup : ((s.net ++ queued s.opQueue).map SubOpReply.key).Nodup
  answered : ∀ r ∈ s.net ++ queued s.opQueue, r.key ∈ s.answered
  issued : ∀ r ∈ s.net ++ queued s.opQueue, (r.tid, r.source, r.proc) ∈ s.issued
  bound : ∀ t o p, (t, o, p) ∈ s.issued → t ≤ s.lastTid ∧ o ≠ s.whoami ∧ p ≤ s.proc o
  unique : ∀ t o p p', (t, o, p) ∈ s.issued → (t, o, p') ∈ s.issued → p = p'
  asked : ∀ t o c, (t, o, c) ∈ s.answered → t ≤ s.lastTid
  early : ∀ t, s.lastTid < t → s.waitingForRepop t = []

/-- A commit of `o` for `t` may still be handled: it is in the queue, or it will not
be dropped when it comes. -/
def OwedBy (s : PG) (t o : ℕ) : Prop :=
  (∃ r ∈ queued s.opQueue, r.key = (t, o, true)) ∨
  ((t, o, s.proc o) ∈ s.issued ∧ s.up o = true ∧
    ((t, o, true) ∉ s.answered ∨ ∃ r ∈ s.net, r.key = (t, o, true)))

/-- The ids of the callbacks that the store has. -/
def PG.calls (s : PG) : List ℕ := s.oncommit.map (·.1)

/-- What holds while the gather `x`, if any, is worked on. -/
structure Busy (x : Option ℕ) (s : PG) : Prop where
  ok : s.ok = true
  backed : Backed s.whoami s.log
  old : ∀ e ∈ s.log, ∀ t, e.tid? = some t → t ≤ s.lastTid
  present : ∀ t, (s.repGather t).isSome → t ≤ s.lastTid
  nodup : s.calls.Nodup
  recent : ∀ t ∈ s.calls, t ≤ s.lastTid
  gathers : ∀ t g, some t ≠ x → s.repGather t = some g → GatherInv s.whoami s.log s.calls t g
  waiting : ∀ t g, some t ≠ x → s.repGather t = some g → g.canDelete = false
  owed : ∀ t g, some t ≠ x → s.repGather t = some g → ∀ o, OwedBy s t o → o ∈ g.waitforCommit
  gone : ∀ t osds, .opened t osds ∈ s.log → s.repGather t = none → ∃ g, .deleted t g ∈ s.log
  msgs : NetInv s
  acting : s.acting.Nodup
  up : s.up s.whoami = true

/-- The invariant of the group. -/
abbrev Inv (s : PG) : Prop := Busy none s

/-- The gather of `t` is worked on, and `g` is its content. -/
structure Held (t : ℕ) (g : RepGather) (s : PG) : Prop where
  busy : Busy (some t) s
  present : (s.repGather t).isSome
  gather : GatherInv s.whoami s.log s.calls t g
  owed : ∀ o, OwedBy s t o → o ∈ g.waitforCommit

theorem Busy.hold {s : PG} (h : Inv s) {t : ℕ} {g : RepGather} (hg : s.repGather t = some g) :
    Held t g s where
  busy := { h with
    gathers := fun t g _ => h.gathers t g (by simp)
    waiting := fun t g _ => h.waiting t g (by simp)
    owed := fun t g _ => h.owed t g (by simp) }
  present := by rw [hg]; rfl
  gather := h.gathers t g (by simp) hg
  owed := h.owed t g (by simp) hg

/-! ### Recording events -/

/-- The event is not about the replies or the end of `t`. -/
def Event.Quiet (t : ℕ) : Event → Prop
  | .opened t' _ | .ackReply t' | .commitReply t' | .deleted t' _ => t' ≠ t
  | .applied _ | .acked _ _ | .committed _ _ | .failed _ => True

theorem Event.Quiet.opens {t : ℕ} (h : e.Quiet t) : e.opens t = false := by
  cases e <;> simp_all [Event.Quiet, Event.opens]

theorem GatherInv.note {me t : ℕ} {log : List Event} {calls : List ℕ} {g : RepGather}
    (h : GatherInv me log calls t g) (hq : e.Quiet t) : GatherInv me (e :: log) calls t g where
  opened := mem_cons_of_mem _ h.opened
  sub := h.sub
  self := h.self
  selfCommit hc := mem_cons_of_mem _ (h.selfCommit hc)
  commit o ho hne hc := (h.commit o ho hne hc).cons hq.opens
  ack o ho hne hc := (h.ack o ho hne hc).imp (mem_cons_of_mem _) fun hs => hs.cons hq.opens
  applied ha := mem_cons_of_mem _ (h.applied ha)
  unapplied := h.unapplied
  called := h.called
  unacked ha hm := by
    rcases mem_cons.mp hm with rfl | hm
    · exact hq rfl
    · exact h.unacked ha hm
  unsent := by
    refine ⟨h.unsent.1, fun hm => ?_⟩
    rcases mem_cons.mp hm with rfl | hm
    · exact hq rfl
    · exact h.unsent.2 hm
  kept g' hm := by
    rcases mem_cons.mp hm with rfl | hm
    · exact hq rfl
    · exact h.kept g' hm

theorem Busy.note {x : Option ℕ} {s : PG} (h : Busy x s)
    (hj : Justified s.whoami s.log e) (hq : ∀ t, some t ≠ x → e.Quiet t)
    (ho : ∀ t, e.opens t = false) (hb : ∀ t, e.tid? = some t → t ≤ s.lastTid) : Busy x (s.note e) where
  ok := h.ok
  backed := ⟨hj, h.backed⟩
  old e' he' := by
    rcases mem_cons.mp he' with rfl | he'
    · exact hb
    · exact h.old e' he'
  present := h.present
  nodup := h.nodup
  recent := h.recent
  gathers t g hx hg := (h.gathers t g hx hg).note (hq t hx)
  waiting := h.waiting
  owed := h.owed
  gone t osds hm hn := by
    rcases mem_cons.mp hm with rfl | hm
    · have := ho t
      simp [Event.opens] at this
    · obtain ⟨g, hg⟩ := h.gone t osds hm hn
      exact ⟨g, mem_cons_of_mem _ hg⟩
  msgs := { h.msgs with }
  acting := h.acting
  up := h.up

theorem Held.tid_le {t : ℕ} {g : RepGather} {s : PG} (h : Held t g s) : t ≤ s.lastTid :=
  h.busy.present t h.present

/-- An event that is quiet about every operation. -/
def Event.Plain (e : Event) : Prop := ∀ t, e.Quiet t

theorem Held.note {t : ℕ} {g : RepGather} {s : PG} (h : Held t g s) (hp : e.Plain)
    (hj : Justified s.whoami s.log e) (hb : ∀ t', e.tid? = some t' → t' ≤ s.lastTid) :
    Held t g (s.note e) where
  busy := h.busy.note hj (fun t _ => hp t) (fun t => (hp t).opens) hb
  present := h.present
  gather := h.gather.note (hp t)
  owed := h.owed

/-! ### Putting a gather back -/

theorem canDelete_iff (g : RepGather) :
    g.canDelete = true ↔ g.waitforAck = ∅ ∧ g.waitforCommit = ∅ := by
  simp [RepGather.canDelete]

/-- The gather is deleted. -/
theorem delete_inv {t : ℕ} {g : RepGather} {s : PG} (h : Busy (some t) s)
    (hs : (s.repGather t).isSome) (hk : ∀ g', .deleted t g' ∉ s.log) (hd : g.canDelete = true) :
    Inv (deleteIfDone t g s) := by
  have hsome : ((s.repGather t).isNone) = false := by simpa using hs
  have hn : Busy (some t) (s.note (.deleted t g)) :=
    h.note ⟨hk, (canDelete_iff g).mp hd⟩ (fun t' ht e => ht (by rw [e])) (fun _ => rfl)
      (fun t' ht => by cases ht; exact h.present t hs)
  have hne : ∀ {t' g'}, Function.update s.repGather t none t' = some g' →
      some t' ≠ some t ∧ s.repGather t' = some g' := by
    intro t' g' hg'
    by_cases ht : t' = t
    · subst ht; simp at hg'
    · rw [update_of_ne ht] at hg'
      exact ⟨by simpa using ht, hg'⟩
  rw [deleteIfDone, if_pos hd]
  rw [if_neg (by rw [hsome]; simp)]
  exact { hn with
    present := fun t' ht' => by
      obtain ⟨g', hg'⟩ := isSome_iff_exists.mp ht'
      exact hn.present t' (by rw [show (s.note (.deleted t g)).repGather t' = some g' from (hne hg').2]; rfl)
    gathers := fun t' g' _ hg' => hn.gathers t' g' (hne hg').1 (hne hg').2
    waiting := fun t' g' _ hg' => hn.waiting t' g' (hne hg').1 (hne hg').2
    owed := fun t' g' _ hg' => hn.owed t' g' (hne hg').1 (hne hg').2
    gone := fun t' osds hm hg' => by
      by_cases ht : t' = t
      · exact ⟨g, by rw [ht]; exact mem_cons_self⟩
      · exact hn.gone t' osds hm (by simpa [PG.note, update_of_ne ht] using hg')
    msgs := { hn.msgs with } }

/-- The gather stays. -/
theorem Held.set_inv {t : ℕ} {g : RepGather} {s : PG} (h : Held t g s) (hd : g.canDelete = false) :
    Inv (s.setGather t g) := by
  have hcases : ∀ {t' g'}, Function.update s.repGather t (some g) t' = some g' →
      (t' = t ∧ g' = g) ∨ (some t' ≠ some t ∧ s.repGather t' = some g') := by
    intro t' g' hg'
    by_cases ht : t' = t
    · subst ht
      rw [update_self] at hg'
      exact .inl ⟨rfl, (some.inj hg').symm⟩
    · rw [update_of_ne ht] at hg'
      exact .inr ⟨by simpa using ht, hg'⟩
  have hb := h.busy
  exact { hb with
    present := fun t' ht' => by
      obtain ⟨g', hg'⟩ := isSome_iff_exists.mp ht'
      rcases hcases hg' with ⟨rfl, -⟩ | ⟨-, hg'⟩
      · exact h.tid_le
      · exact hb.present t' (by rw [hg']; rfl)
    gathers := fun t' g' _ hg' => by
      rcases hcases hg' with ⟨rfl, rfl⟩ | ⟨ht, hg'⟩
      · exact h.gather
      · exact hb.gathers t' g' ht hg'
    waiting := fun t' g' _ hg' => by
      rcases hcases hg' with ⟨rfl, rfl⟩ | ⟨ht, hg'⟩
      · exact hd
      · exact hb.waiting t' g' ht hg'
    owed := fun t' g' _ hg' => by
      rcases hcases hg' with ⟨rfl, rfl⟩ | ⟨ht, hg'⟩
      · exact h.owed
      · exact hb.owed t' g' ht hg'
    gone := fun t' osds hm hg' => by
      by_cases ht : t' = t
      · simp [PG.setGather, ht] at hg'
      · exact hb.gone t' osds hm (by simpa [PG.setGather, update_of_ne ht] using hg')
    msgs := { hb.msgs with } }

theorem Held.deleteIfDone_inv {t : ℕ} {g : RepGather} {s : PG} (h : Held t g s) :
    Inv (deleteIfDone t g s) := by
  by_cases hd : g.canDelete = true
  · exact delete_inv h.busy h.present h.gather.kept hd
  · rw [deleteIfDone, if_neg hd]
    exact h.set_inv (by simpa using hd)

/-! ### Applying and replying -/

/-- The primary applies the operation once, and its store will call back. -/
theorem Held.apply {t : ℕ} {g : RepGather} {s : PG} (h : Held t g s) (ha : g.applied = false) :
    Held t (applyRepop t g s).1 (applyRepop t g s).2 := by
  have hn : Held t g (s.note (.applied t)) :=
    h.note (fun _ => trivial) trivial (fun t' ht => by cases ht; exact h.tid_le)
  have hu := h.gather.unapplied ha
  have hc : ∀ t', some t' ≠ some t → ∀ {calls : List ℕ}, t' ∈ calls ++ [t] → t' ∈ calls := by
    intro t' ht calls hm
    rcases mem_append.mp hm with hm | hm
    · exact hm
    · exact absurd (by rw [mem_singleton.mp hm]) ht
  have hcalls : ∀ v, { s.note (.applied t) with oncommit := s.oncommit ++ [(t, v)] }.calls =
      s.calls ++ [t] := fun v => by simp [PG.calls]
  rw [applyRepop, if_neg (by simp [ha])]
  have hb := hn.busy
  refine ⟨{ hb with
      nodup := ?_, recent := ?_, gathers := ?_
      msgs := { hb.msgs with } }, h.present, ?_, h.owed⟩
  · rw [hcalls, nodup_append]
    exact ⟨h.busy.nodup, nodup_singleton t, fun a ha b hb hab =>
      hu.2 (by rw [← mem_singleton.mp hb, ← hab]; exact ha)⟩
  · intro t' ht'
    rw [hcalls] at ht'
    rcases mem_append.mp ht' with ht' | ht'
    · exact h.busy.recent t' ht'
    · rw [mem_singleton.mp ht']
      exact h.tid_le
  · intro t' g' hx hg'
    have hgi := hb.gathers t' g' hx hg'
    rw [hcalls]
    exact { hgi with
      unapplied := fun hap => ⟨(hgi.unapplied hap).1, fun hm => (hgi.unapplied hap).2 (hc t' hx hm)⟩
      called := fun hm => hgi.called (hc t' hx hm) }
  · have hgi := hn.gather
    exact { hgi with
      applied := fun _ => mem_cons_self
      unapplied := fun hf => absurd hf (by simp)
      called := fun _ => hu.1 }

theorem Held.sendAck {t : ℕ} {g : RepGather} {s : PG} (h : Held t g s) (ha : g.applied = true)
    (hs : g.sentAck = false) (hw : g.waitforAck = ∅) :
    Held t { g with sentAck := true } (s.note (.ackReply t)) := by
  have hj : Justified s.whoami s.log (.ackReply t) :=
    ⟨h.gather.unacked hs, h.gather.applied ha, g.osds, h.gather.opened,
      fun o ho hne => h.gather.ack o ho hne (by simp [hw])⟩
  have hgi := h.gather
  refine ⟨h.busy.note hj (fun t' ht e => ht (by rw [e])) (fun _ => rfl)
    (fun t' ht => by cases ht; exact h.tid_le), h.present, ?_, h.owed⟩
  have hm : ∀ {e : Event}, e ∈ s.log → e ∈ .ackReply t :: s.log := mem_cons_of_mem _
  exact { hgi with
    opened := hm hgi.opened
    selfCommit := fun hc => hm (hgi.selfCommit hc)
    commit := fun o ho hne hc => (hgi.commit o ho hne hc).cons rfl
    ack := fun o ho hne hc => (hgi.ack o ho hne hc).imp hm fun hs => hs.cons rfl
    applied := fun ha => hm (hgi.applied ha)
    unacked := fun hf => absurd hf (by simp)
    unsent := ⟨hgi.unsent.1, fun hc => hgi.unsent.2 (by simpa [PG.note] using hc)⟩
    kept := fun g' hk => hgi.kept g' (by simpa [PG.note] using hk) }

/-- **Putting a gather back keeps the invariant.** -/
theorem Held.putRepGather_inv {t : ℕ} {g : RepGather} {s : PG} (h : Held t g s) :
    Inv (putRepGather t g s) := by
  rw [putRepGather, sendReply]
  by_cases hc : g.canSendCommit = true ∧ g.wantsCommit = true
  · rw [if_pos hc]
    have hcan : ¬ g.sentCommit = true ∧ g.waitforAck = ∅ ∧ g.waitforCommit = ∅ := by
      simpa [RepGather.canSendCommit] using hc.1
    have hj : Justified s.whoami s.log (.commitReply t) :=
      ⟨h.gather.unsent.2, h.gather.selfCommit (by simp [hcan.2.2]), g.osds, h.gather.opened,
        fun o ho hne => h.gather.commit o ho hne (by simp [hcan.2.2])⟩
    have hb : Busy (some t) (s.note (.commitReply t)) :=
      h.busy.note hj (fun t' ht e => ht (by rw [e])) (fun _ => rfl)
        (fun t' ht => by cases ht; exact h.tid_le)
    refine delete_inv hb h.present (fun g' hk => h.gather.kept g' (by simpa [PG.note] using hk)) ?_
    exact (canDelete_iff _).mpr hcan.2
  · rw [if_neg hc]
    by_cases ha : g.canSendAck = true ∧ g.wantsAck = true
    · rw [if_pos ha]
      have hcan : g.sentAck = false ∧ g.sentCommit = false ∧ g.waitforAck = ∅ := by
        simpa [RepGather.canSendAck] using ha.1
      by_cases hap : g.applied = true
      · rw [if_pos hap]
        exact (h.sendAck hap hcan.1 hcan.2.2).deleteIfDone_inv
      · rw [if_neg hap]
        have hap' : g.applied = false := by simpa using hap
        have h1 := h.apply hap'
        have hg1 : (applyRepop t g s).1 = { g with applied := true } := by
          rw [applyRepop, if_neg hap]
        refine (h1.sendAck ?_ ?_ ?_).deleteIfDone_inv
        · rw [hg1]
        · rw [hg1]; exact hcan.1
        · rw [hg1]; exact hcan.2.2
    · rw [if_neg ha]
      exact h.deleteIfDone_inv

/-! ### Acks, commits and failures -/

section answers

variable {t o : ℕ} {g : RepGather} {s : PG}

/-- The gather stops waiting for the ack of `o`. -/
theorem Held.ack (h : Held t g s) (ho : .acked t o ∈ s.log) :
    Held t { g with waitforAck := g.waitforAck.erase o } s where
  busy := h.busy
  present := h.present
  gather := { h.gather with
    sub := (Finset.erase_subset o _).trans h.gather.sub
    self := fun hm => h.gather.self (Finset.mem_of_mem_erase hm)
    ack := fun o' ho' hne hn => by
      by_cases ho'' : o' = o
      · exact .inl (by rw [ho'']; exact ho)
      · exact h.gather.ack o' ho' hne fun hm => hn (Finset.mem_erase.mpr ⟨ho'', hm⟩) }
  owed := h.owed

/-- The gather stops waiting for the replica `o`. -/
theorem Held.commit (h : Held t g s) (thru : EVersion) (hme : o ≠ s.whoami) (hs : Safe s.log t o)
    (hw : ¬ OwedBy s t o) :
    Held t { g with
      waitforCommit := g.waitforCommit.erase o
      waitforAck := g.waitforAck.erase o
      pgCompleteThru := (o, thru) :: g.pgCompleteThru } s where
  busy := h.busy
  present := h.present
  gather := { h.gather with
    sub := Finset.erase_subset_erase o h.gather.sub
    self := fun hm => h.gather.self (Finset.mem_of_mem_erase hm)
    selfCommit := fun hn => h.gather.selfCommit fun hm => hn (Finset.mem_erase.mpr ⟨hme.symm, hm⟩)
    commit := fun o' ho' hne hn => by
      by_cases ho : o' = o
      · rw [ho]; exact hs
      · exact h.gather.commit o' ho' hne fun hm => hn (Finset.mem_erase.mpr ⟨ho, hm⟩)
    ack := fun o' ho' hne hn => by
      by_cases ho : o' = o
      · rw [ho]; exact .inr hs
      · exact h.gather.ack o' ho' hne fun hm => hn (Finset.mem_erase.mpr ⟨ho, hm⟩)
    unapplied := fun ha => ⟨Finset.mem_erase.mpr ⟨hme.symm, (h.gather.unapplied ha).1⟩,
      (h.gather.unapplied ha).2⟩
    called := fun hc => Finset.mem_erase.mpr ⟨hme.symm, h.gather.called hc⟩ }
  owed o' ho' := Finset.mem_erase.mpr ⟨fun e => hw (e ▸ ho'), h.owed o' ho'⟩

theorem OwedBy.ne_whoami (hm : NetInv s) (h : OwedBy s t o) : o ≠ s.whoami := by
  rcases h with ⟨r, hr, hk⟩ | ⟨hi, -⟩
  · obtain ⟨-, hsrc, -⟩ : r.tid = t ∧ r.source = o ∧ r.commit = true := by
      simpa [SubOpReply.key] using hk
    rw [← hsrc]
    exact (hm.bound _ _ _ (hm.issued r (mem_append_right _ hr))).2.1
  · exact (hm.bound _ _ _ hi).2.1

theorem Held.commitSelf (h : Held t g s) (thru : EVersion) (hc : .committed t s.whoami ∈ s.log)
    (ha : g.applied = true) (hn : t ∉ s.calls) :
    Held t { g with
      waitforCommit := g.waitforCommit.erase s.whoami
      pgCompleteThru := (s.whoami, thru) :: g.pgCompleteThru } s where
  busy := h.busy
  present := h.present
  gather := { h.gather with
    sub := fun o ho => Finset.mem_erase.mpr ⟨fun e => h.gather.self (e ▸ ho), h.gather.sub ho⟩
    selfCommit := fun _ => hc
    commit := fun o ho hne hw => h.gather.commit o ho hne fun hm => hw (Finset.mem_erase.mpr ⟨hne, hm⟩)
    unapplied := fun hf => absurd (ha.symm.trans hf) (by simp)
    called := fun hm => absurd hm hn }
  owed o ho := Finset.mem_erase.mpr ⟨ho.ne_whoami h.busy.msgs, h.owed o ho⟩

end answers

/-! ### An operation is opened -/

/-- The operations of the log, of the callbacks and of the replies are older than a
new one. -/
theorem Busy.fresh {s : PG} (h : Inv s) {t : ℕ} (ht : s.lastTid < t) :
    (∀ e ∈ s.log, e.tid? ≠ some t) ∧ t ∉ s.calls ∧ ∀ o p, (t, o, p) ∉ s.issued := by
  refine ⟨fun e he ht' => ?_, fun hm => ?_, fun o p hm => ?_⟩
  · have := h.old e he t ht'
    omega
  · have := h.recent t hm
    omega
  · have := (h.msgs.bound t o p hm).1
    omega

/-- The group right after the sub-ops of a new operation are sent. -/
theorem opened_held {s : PG} (h : Inv s) (wantsAck wantsCommit : Bool)
    (hp : s.acting.head? = some s.whoami) :
    let t := s.lastTid + 1
    let n := newRepGather t wantsAck wantsCommit { s with lastTid := t }
    s.whoami ∈ n.1.waitforAck ∧
      Held t { n.1 with waitforAck := n.1.waitforAck.erase s.whoami } (issueRepops t n.2) := by
  intro t n
  obtain ⟨rest, hrest⟩ : ∃ rest, s.acting = s.whoami :: rest := by
    cases hs : s.acting with
    | nil => simp [hs] at hp
    | cons a rest => exact ⟨rest, by simpa [hs] using hp⟩
  have hnd := h.acting
  rw [hrest, nodup_cons] at hnd
  have hlt : s.lastTid < t := Nat.lt_succ_self _
  obtain ⟨hlog, hcalls, hiss⟩ := h.fresh hlt
  have hearly : s.waitingForRepop t = [] := h.msgs.early t hlt
  have hmem : s.whoami ∈ s.acting.toFinset := by simp [hrest]
  have hnet : (issueRepops t n.2).net = s.net := by simp [issueRepops, n, newRepGather, hearly]
  have hissued : ∀ {t' o p}, (t', o, p) ∈ (issueRepops t n.2).issued →
      (t', o, p) ∈ s.issued ∨ (t' = t ∧ o ∈ rest ∧ p = s.proc o) := by
    intro t' o p hm
    have hm' : (t', o, p) ∈ s.issued ++ rest.map fun o => (t, o, s.proc o) := by
      simpa [issueRepops, n, newRepGather, PG.note, PG.setGather, hrest] using hm
    rcases mem_append.mp hm' with hm' | hm'
    · exact .inl hm'
    · obtain ⟨o', ho', he⟩ := List.mem_map.mp hm'
      obtain ⟨rfl, rfl, rfl⟩ : t = t' ∧ o' = o ∧ s.proc o' = p := by simpa using he
      exact .inr ⟨rfl, ho', rfl⟩
  have hother : ∀ {t' g'}, some t' ≠ some t → (issueRepops t n.2).repGather t' = some g' →
      s.repGather t' = some g' := by
    intro t' g' hx hg'
    have hne : t' ≠ t := fun e => hx (by rw [e])
    simpa [issueRepops, n, newRepGather, PG.note, PG.setGather, update_of_ne hne] using hg'
  have howed : ∀ {t' o}, some t' ≠ some t → OwedBy (issueRepops t n.2) t' o → OwedBy s t' o := by
    intro t' o hx ho
    rcases ho with ho | ⟨hi, hu, ha⟩
    · exact .inl ho
    · rcases hissued hi with hi | ⟨rfl, -, -⟩
      · rw [hnet] at ha
        exact .inr ⟨hi, hu, ha⟩
      · exact absurd rfl hx
  have hquiet : ∀ t', some t' ≠ some t → (Event.opened t s.acting.toFinset).Quiet t' :=
    fun t' hx e => hx (by rw [e])
  refine ⟨hmem, ⟨?_, ?_, ?_, ?_⟩⟩
  · exact {
      ok := h.ok
      backed := ⟨fun osds hm => hlog _ hm rfl, h.backed⟩
      old := by
        intro e he t' ht'
        rcases mem_cons.mp he with rfl | he
        · cases ht'; exact le_refl t
        · exact (h.old e he t' ht').trans hlt.le
      present := by
        intro t' ht'
        by_cases hx : t' = t
        · exact hx.le
        · obtain ⟨g', hg'⟩ := isSome_iff_exists.mp ht'
          have := hother (by simpa using hx) hg'
          exact (h.present t' (by rw [this]; rfl)).trans hlt.le
      nodup := h.nodup
      recent := fun t' ht' => (h.recent t' ht').trans hlt.le
      gathers := fun t' g' hx hg' => (h.gathers t' g' (by simp) (hother hx hg')).note (hquiet t' hx)
      waiting := fun t' g' hx hg' => h.waiting t' g' (by simp) (hother hx hg')
      owed := fun t' g' hx hg' o ho => h.owed t' g' (by simp) (hother hx hg') o (howed hx ho)
      gone := by
        intro t' osds hm hg'
        by_cases hx : t' = t
        · simp [issueRepops, n, newRepGather, PG.note, PG.setGather, hx] at hg'
        · have hm' : .opened t' osds ∈ s.log := by
            rcases mem_cons.mp hm with hm | hm
            · cases hm
              exact absurd rfl hx
            · exact hm
          have hg : s.repGather t' = none := by
            simpa [issueRepops, n, newRepGather, PG.note, PG.setGather, update_of_ne hx] using hg'
          obtain ⟨g', hg'⟩ := h.gone t' osds hm' hg
          exact ⟨g', mem_cons_of_mem _ hg'⟩
      msgs := {
        nodup := by rw [hnet]; exact h.msgs.nodup
        answered := by rw [hnet]; exact h.msgs.answered
        issued := by
          rw [hnet]
          exact fun r hr => mem_append_left _ (h.msgs.issued r hr)
        bound := by
          intro t' o p hm
          rcases hissued hm with hm | ⟨rfl, ho, rfl⟩
          · obtain ⟨h1, h2, h3⟩ := h.msgs.bound t' o p hm
            exact ⟨h1.trans hlt.le, h2, h3⟩
          · exact ⟨le_rfl, fun e => hnd.1 (e ▸ ho), le_rfl⟩
        unique := by
          intro t' o p p' hm hm'
          rcases hissued hm with hm | ⟨rfl, -, rfl⟩
          · rcases hissued hm' with hm' | ⟨rfl, -, rfl⟩
            · exact h.msgs.unique t' o p p' hm hm'
            · exact absurd hm (hiss o p)
          · rcases hissued hm' with hm' | ⟨-, -, rfl⟩
            · exact absurd hm' (hiss o p')
            · rfl
        asked := fun t' o c hm => (h.msgs.asked t' o c hm).trans hlt.le
        early := by
          intro t' ht'
          have ht'' : t < t' := ht'
          have hne : t' ≠ t := by omega
          have := h.msgs.early t' (hlt.trans ht'')
          simpa [issueRepops, n, newRepGather, PG.note, PG.setGather, update_of_ne hne] using this }
      acting := h.acting
      up := h.up }
  · simp [issueRepops, n, newRepGather, PG.note, PG.setGather]
  · exact {
      opened := mem_cons_self
      sub := Finset.erase_subset _ _
      self := Finset.notMem_erase _ _
      selfCommit := fun hn => absurd hmem hn
      commit := fun o ho _ hn => absurd ho hn
      ack := fun o ho hne hn => absurd (Finset.mem_erase.mpr ⟨hne, ho⟩) hn
      applied := fun hf => absurd hf (by simp [n, newRepGather])
      unapplied := fun _ => ⟨hmem, hcalls⟩
      called := fun hm => absurd hm hcalls
      unacked := fun _ hm => by
        rcases mem_cons.mp hm with hm | hm
        · cases hm
        · exact hlog _ hm rfl
      unsent := ⟨rfl, fun hm => by
        rcases mem_cons.mp hm with hm | hm
        · cases hm
        · exact hlog _ hm rfl⟩
      kept := fun g' hm => by
        rcases mem_cons.mp hm with hm | hm
        · cases hm
        · exact hlog _ hm rfl }
  · intro o ho
    have hrest' : ∀ {o}, o ∈ rest → o ∈ s.acting.toFinset := fun ho => by simp [hrest, ho]
    rcases ho with ⟨r, hr, hk⟩ | ⟨hi, -, -⟩
    · obtain ⟨ht, -, -⟩ : r.tid = t ∧ r.source = o ∧ r.commit = true := by
        simpa [SubOpReply.key] using hk
      have := h.msgs.issued r (mem_append_right _ hr)
      rw [ht] at this
      exact absurd this (hiss _ _)
    · rcases hissued hi with hi | ⟨-, ho, -⟩
      · exact absurd hi (hiss _ _)
      · exact hrest' ho

theorem opModify_inv {s : PG} (h : Inv s) (wantsAck wantsCommit : Bool)
    (hp : s.acting.head? = some s.whoami) : Inv (opModify wantsAck wantsCommit s) := by
  obtain ⟨hmem, hheld⟩ := opened_held h wantsAck wantsCommit hp
  rw [opModify]
  dsimp only
  split
  · next hn => exact absurd hmem hn
  · exact hheld.putRepGather_inv

/-! ### Replies and callbacks -/

theorem queued_append (q q' : List Work) : queued (q ++ q') = queued q ++ queued q' :=
  filterMap_append

theorem queued_cons_reply (r : SubOpReply) (q : List Work) : queued (.reply r :: q) = r :: queued q :=
  rfl

/-- A reply leaves the queue. -/
theorem dequeue_reply {s : PG} (h : Inv s) {r : SubOpReply} {q : List Work}
    (hq : s.opQueue = .reply r :: q) :
    Inv { s with opQueue := q } ∧ (r.commit = true → ¬ OwedBy { s with opQueue := q } r.tid r.source) := by
  have hsub : ∀ r', r' ∈ s.net ++ queued q → r' ∈ s.net ++ queued s.opQueue := by
    intro r' hr'
    rw [hq, queued_cons_reply]
    rcases mem_append.mp hr' with hr' | hr'
    · exact mem_append_left _ hr'
    · exact mem_append_right _ (mem_cons_of_mem _ hr')
  have hnd : (r.key :: (s.net ++ queued q).map SubOpReply.key).Nodup := by
    have := h.msgs.nodup
    rw [hq, queued_cons_reply] at this
    refine (List.Perm.nodup_iff ?_).mp this
    exact perm_middle.map _
  rw [nodup_cons] at hnd
  refine ⟨{ h with
    owed := fun t g _ hg o ho => h.owed t g (by simp) hg o ?_
    msgs := { h.msgs with
      nodup := hnd.2
      answered := fun r' hr' => h.msgs.answered r' (hsub r' hr')
      issued := fun r' hr' => h.msgs.issued r' (hsub r' hr') } }, fun hc ho => ?_⟩
  · rcases ho with ⟨r', hr', hk⟩ | ho
    · refine .inl ⟨r', ?_, hk⟩
      rw [hq, queued_cons_reply]
      exact mem_cons_of_mem _ hr'
    · exact .inr ho
  · have hkey : (r.tid, r.source, true) = r.key := by simp [SubOpReply.key, hc]
    have hnot : ∀ r' ∈ s.net ++ queued q, r'.key ≠ (r.tid, r.source, true) := fun r' hr' hk =>
      hnd.1 (List.mem_map.mpr ⟨r', hr', hk.trans hkey⟩)
    rcases ho with ⟨r', hr', hk⟩ | ⟨-, -, ho | ⟨r', hr', hk⟩⟩
    · exact hnot r' (mem_append_right _ hr') hk
    · refine ho ?_
      rw [hkey]
      exact h.msgs.answered r (by rw [hq, queued_cons_reply]; simp)
    · exact hnot r' (mem_append_left _ hr') hk

theorem subOpModifyReply_inv {s : PG} (h : Inv s) (r : SubOpReply)
    (hi : (r.tid, r.source, r.proc) ∈ s.issued) (hw : r.commit = true → ¬ OwedBy s r.tid r.source)
    (hc : r.commit = true → ∀ g, s.repGather r.tid = some g → r.source ∈ g.waitforCommit) :
    Inv (subOpModifyReply r s) := by
  obtain ⟨ht, hme, -⟩ := h.msgs.bound _ _ _ hi
  rw [subOpModifyReply]
  cases hg : s.repGather r.tid with
  | none =>
    refine { h with msgs := { h.msgs with early := fun t hlt => ?_ } }
    have hne : t ≠ r.tid := by
      have : s.lastTid < t := hlt
      omega
    have := h.msgs.early t hlt
    simpa [update_of_ne hne] using this
  | some g =>
    have hb : ∀ t', (Option.some r.tid = some t') → t' ≤ s.lastTid := fun t' e => by cases e; exact ht
    cases hcm : r.commit with
    | true =>
      have hheld : Held r.tid g (s.note (.committed r.tid r.source)) :=
        (h.hold hg).note (fun _ => trivial) trivial hb
      have hput := (hheld.commit r.completeThru hme (.inl mem_cons_self) (hw hcm)).putRepGather_inv
      simpa [repopAck, PG.note, hg, hc hcm g hg] using hput
    | false =>
      have hheld : Held r.tid g (s.note (.acked r.tid r.source)) :=
        (h.hold hg).note (fun _ => trivial) trivial hb
      have hput := (hheld.ack (o := r.source) mem_cons_self).putRepGather_inv
      simpa [repopAck, PG.note, hg] using hput

/-- The store has called back. -/
theorem storeCommit_inv {s : PG} (h : Inv s) {i t : ℕ} {thru : EVersion}
    (hi : s.oncommit[i]? = some (t, thru)) :
    Inv (opModifyCommit t thru { s with oncommit := s.oncommit.eraseIdx i }) := by
  set s' : PG := { s with oncommit := s.oncommit.eraseIdx i } with hs'
  have hcalls : s'.calls = s.calls.eraseIdx i := by simp [hs', PG.calls, eraseIdx_map]
  have hci : s.calls[i]? = some t := by simp [PG.calls, hi]
  obtain ⟨hlt, hget⟩ := List.getElem?_eq_some_iff.mp hci
  have hmem : t ∈ s.calls := hget ▸ getElem_mem hlt
  have hsub : ∀ {t'}, t' ∈ s'.calls → t' ∈ s.calls := by
    intro t' ht'
    rw [hcalls] at ht'
    exact mem_of_mem_eraseIdx ht'
  have hnot : t ∉ s'.calls := by
    rw [hcalls, ← hget, ← h.nodup.erase_getElem i hlt]
    exact h.nodup.not_mem_erase
  have h' : Inv s' := { h with
    nodup := by rw [hcalls]; exact h.nodup.eraseIdx i
    recent := fun t' ht' => h.recent t' (hsub ht')
    gathers := fun t' g' hx hg' =>
      let hgi := h.gathers t' g' hx hg'
      { hgi with
        unapplied := fun ha => ⟨(hgi.unapplied ha).1, fun hm => (hgi.unapplied ha).2 (hsub hm)⟩
        called := fun hm => hgi.called (hsub hm) }
    msgs := { h.msgs with } }
  rw [opModifyCommit]
  cases hg : s'.repGather t with
  | none => exact h'
  | some g =>
    have hgi := h.gathers t g (by simp) hg
    have hw : s'.whoami ∈ g.waitforCommit := hgi.called hmem
    have ha : g.applied = true := by
      by_contra hf
      exact (hgi.unapplied (by simpa using hf)).2 hmem
    have hheld : Held t g (s'.note (.committed t s'.whoami)) :=
      (h'.hold hg).note (fun _ => trivial) trivial
        (fun t' e => by cases e; exact h.present t (by rw [show s.repGather t = some g from hg]; rfl))
    dsimp only
    rw [if_neg (not_not.mpr hw)]
    exact (hheld.commitSelf thru mem_cons_self ha hnot).putRepGather_inv

/-! ### Failures -/

/-- What work on the gather of `t` leaves alone. -/
structure Apart (t : ℕ) (s s' : PG) : Prop where
  gathers : ∀ t', t' ≠ t → s'.repGather t' = s.repGather t'
  whoami : s'.whoami = s.whoami
  up : s'.up = s.up
  queue : s'.opQueue = s.opQueue
  tid : s'.lastTid = s.lastTid
  since : ∀ t' e, e ∈ sinceOpened t' s.log → e ∈ sinceOpened t' s'.log

theorem Apart.refl (t : ℕ) (s : PG) : Apart t s s :=
  ⟨fun _ _ => rfl, rfl, rfl, rfl, rfl, fun _ _ h => h⟩

theorem Apart.trans {t : ℕ} {s s' s'' : PG} (h : Apart t s s') (h' : Apart t s' s'') : Apart t s s'' :=
  ⟨fun t' ht => (h'.gathers t' ht).trans (h.gathers t' ht), h'.whoami.trans h.whoami,
    h'.up.trans h.up, h'.queue.trans h.queue, h'.tid.trans h.tid,
    fun t' e he => h'.since t' e (h.since t' e he)⟩

theorem note_apart (t : ℕ) (s : PG) (he : ∀ t', e.opens t' = false) : Apart t s (s.note e) :=
  ⟨fun _ _ => rfl, rfl, rfl, rfl, rfl, fun t' e' he' => by
    rw [PG.note, sinceOpened_cons _ (he t')]
    exact mem_cons_of_mem _ he'⟩

theorem setGather_apart (t : ℕ) (s : PG) (g : RepGather) : Apart t s (s.setGather t g) :=
  ⟨fun _ ht => update_of_ne ht _ _, rfl, rfl, rfl, rfl, fun _ _ h => h⟩

section

variable (t : ℕ) (g : RepGather) (s : PG)
include t g s

theorem applyRepop_apart : Apart t s (applyRepop t g s).2 := by
  rw [applyRepop]
  split_ifs
  · exact ⟨fun _ _ => rfl, rfl, rfl, rfl, rfl, fun _ _ h => h⟩
  · have h := note_apart t s (e := .applied t) fun _ => rfl
    exact ⟨h.gathers, h.whoami, h.up, h.queue, h.tid, h.since⟩

theorem sendReply_apart : Apart t s (sendReply t g s).2 := by
  rw [sendReply]
  split_ifs
  · exact note_apart t s fun _ => rfl
  · exact note_apart t s fun _ => rfl
  · exact (applyRepop_apart t g s).trans (note_apart t _ fun _ => rfl)
  · exact .refl t s

theorem deleteIfDone_apart : Apart t s (deleteIfDone t g s) := by
  rw [deleteIfDone]
  split_ifs
  · dsimp only
    split_ifs
    · exact ⟨fun _ _ => rfl, rfl, rfl, rfl, rfl, fun _ _ h => h⟩
    · have h := note_apart t s (e := .deleted t g) fun _ => rfl
      exact ⟨fun _ ht => update_of_ne ht _ _, h.whoami, h.up, h.queue, h.tid, h.since⟩
  · exact setGather_apart t s g

theorem putRepGather_apart : Apart t s (putRepGather t g s) :=
  (sendReply_apart t g s).trans (deleteIfDone_apart t _ _)

end

/-- One gather in `on_osd_failure`. -/
theorem repopAck_failed {s : PG} (h : Inv s) {o t : ℕ} {g : RepGather} (hq : s.opQueue = [])
    (hup : s.up o = false) (hg : s.repGather t = some g) (ho : o ∈ g.waitforCommit)
    (hs : .failed o ∈ sinceOpened t s.log) :
    Inv (repopAck t true o .zero s) ∧ Apart t s (repopAck t true o .zero s) := by
  have hme : o ≠ s.whoami := by
    rintro rfl
    rw [h.up] at hup
    cases hup
  have hw : ¬ OwedBy s t o := by
    rintro (⟨r, hr, -⟩ | ⟨-, hu, -⟩)
    · simp [hq, queued] at hr
    · rw [hup] at hu
      cases hu
  rw [repopAck, hg]
  simp only [if_true, ho, not_true_eq_false, if_false]
  exact ⟨((h.hold hg).commit .zero hme (.inr hs) hw).putRepGather_inv, putRepGather_apart ..⟩

/-- What a failure or a change leaves: the invariant, with the map and the queue as
they were. -/
structure Handled (s s' : PG) : Prop where
  inv : Inv s'
  up : s'.up = s.up
  queue : s'.opQueue = s.opQueue

/-- The gathers that wait for `o` are gone through. -/
theorem failed_foldl {o : ℕ} : ∀ (ls : List ℕ) (s : PG), ls.Nodup → Inv s → s.opQueue = [] →
    s.up o = false → (∀ t ∈ ls, ∃ g, s.repGather t = some g ∧ o ∈ g.waitforCommit) →
    (∀ t, .failed o ∈ sinceOpened t s.log) →
    Handled s (ls.foldl (fun s t => repopAck t true o .zero s) s)
  | [], s, _, h, _, _, _, _ => ⟨h, rfl, rfl⟩
  | t :: ls, s, hnd, h, hq, hup, hls, hs => by
    obtain ⟨hnt, hnd⟩ := nodup_cons.mp hnd
    obtain ⟨g, hg, ho⟩ := hls t mem_cons_self
    obtain ⟨hi, ha⟩ := repopAck_failed h hq hup hg ho (hs t)
    have ih := failed_foldl ls _ hnd hi (ha.queue.trans hq) (by rw [ha.up]; exact hup)
      (fun t' ht' => by
        have hne : t' ≠ t := fun e => hnt (e ▸ ht')
        rw [ha.gathers t' hne]
        exact hls t' (mem_cons_of_mem _ ht'))
      (fun t' => ha.since t' _ (hs t'))
    exact ⟨ih.inv, ih.up.trans ha.up, ih.queue.trans ha.queue⟩

theorem onOsdFailure_inv {s : PG} (h : Inv s) {o : ℕ} (hq : s.opQueue = []) (hup : s.up o = false) :
    Handled s (onOsdFailure s o) := by
  have hn : Inv (s.note (.failed o)) :=
    h.note trivial (fun _ _ => trivial) (fun _ => rfl) (fun _ e => by cases e)
  have hf := failed_foldl (s.tids.filter fun t => (s.repGather t).any fun g =>
    o ∈ g.waitforAck ∨ o ∈ g.waitforCommit) _ ((nodup_range.filter _).filter _) hn hq hup ?_ ?_
  · exact ⟨hf.inv, hf.up, hf.queue⟩
  · intro t ht
    obtain ⟨g, hg, ho⟩ : ∃ g, s.repGather t = some g ∧ (o ∈ g.waitforAck ∨ o ∈ g.waitforCommit) := by
      simpa [Option.any_eq_true] using (mem_filter.mp ht).2
    exact ⟨g, hg, ho.elim (fun ha => (h.gathers t g (by simp) hg).sub ha) id⟩
  · intro t
    exact mem_cons_self

theorem onOsdFailure_foldl : ∀ (os : List ℕ) (s : PG), Inv s → s.opQueue = [] →
    (∀ o ∈ os, s.up o = false) → Handled s (os.foldl onOsdFailure s)
  | [], s, h, _, _ => ⟨h, rfl, rfl⟩
  | o :: os, s, h, hq, hup => by
    have h1 := onOsdFailure_inv h hq (hup o mem_cons_self)
    have ih := onOsdFailure_foldl os _ h1.inv (h1.queue.trans hq)
      (fun o' ho' => by rw [h1.up]; exact hup o' (mem_cons_of_mem _ ho'))
    exact ⟨ih.inv, ih.up.trans h1.up, ih.queue.trans h1.queue⟩

/-! ### Changes of the map -/

theorem applyIfNot_inv {s : PG} (h : Inv s) (t : ℕ) : Inv (applyIfNot s t) := by
  rw [applyIfNot]
  cases hg : s.repGather t with
  | none => exact h
  | some g =>
    dsimp only
    split_ifs with ha
    · exact h
    · refine ((h.hold hg).apply (by simpa using ha)).set_inv ?_
      have hw := h.waiting t g (by simp) hg
      simpa [applyRepop, ha, RepGather.canDelete] using hw

theorem onChange_inv {s : PG} (h : Inv s) : Inv (onChange s) :=
  List.foldlRecOn (motive := Inv) _ _ h fun _ hs t _ => applyIfNot_inv hs t

theorem newMap_inv {s : PG} (h : Inv s) (up : ℕ → Bool) (hq : s.opQueue = [])
    (hup : up s.whoami = true) :
    Inv { s with up := up, proc := fun o => if up o ∧ ¬ s.up o then s.proc o + 1 else s.proc o } := by
  refine { h with
    up := hup
    owed := fun t g _ hg o ho => h.owed t g (by simp) hg o ?_
    msgs := { h.msgs with bound := fun t o p hm => ?_ } }
  · rcases ho with ⟨r, hr, -⟩ | ⟨hi, hu, ha⟩
    · simp [hq, queued] at hr
    · have hb := (h.msgs.bound _ _ _ hi).2.2
      by_cases hold : s.up o = true
      · refine .inr ⟨?_, hold, ha⟩
        simpa [hold] using hi
      · have hu' : up o = true := hu
        dsimp only at hb
        rw [if_pos ⟨hu', hold⟩] at hb
        omega
  · obtain ⟨h1, h2, h3⟩ := h.msgs.bound t o p hm
    refine ⟨h1, h2, ?_⟩
    dsimp only
    split_ifs <;> omega

theorem advanceMap_inv {s : PG} (h : Inv s) (up : ℕ → Bool) (acting : List ℕ) (hq : s.opQueue = [])
    (hup : up s.whoami = true) (hnd : acting.Nodup) : Inv (advanceMap up acting s) := by
  have h1 := newMap_inv h up hq hup
  rw [advanceMap]
  split_ifs with ha
  · exact h1
  · have h2 : Inv { s with
        up := up, proc := fun o => if up o ∧ ¬ s.up o then s.proc o + 1 else s.proc o
        acting := acting } := { h1 with acting := hnd, msgs := { h1.msgs with } }
    refine onChange_inv (onOsdFailure_foldl _ _ h2 hq fun o ho => ?_).inv
    simpa using (mem_filter.mp ho).2

/-! ### Every run -/

/-- A replica sends a reply. -/
theorem answer_inv {s : PG} (h : Inv s) {t o p : ℕ} {commit : Bool} (thru : EVersion)
    (hi : (t, o, p) ∈ s.issued) (ha : (t, o, commit) ∉ s.answered) :
    Inv { s with
      answered := (t, o, commit) :: s.answered
      net := s.net ++ [⟨t, o, p, commit, thru⟩] } := by
  let r : SubOpReply := ⟨t, o, p, commit, thru⟩
  have hperm : (s.net ++ [r] ++ queued s.opQueue).Perm (r :: (s.net ++ queued s.opQueue)) := by
    rw [List.append_assoc]
    exact perm_middle
  refine { h with
    owed := fun t' g _ hg o' ho' => h.owed t' g (by simp) hg o' ?_
    msgs := { h.msgs with
      nodup := ?_
      answered := fun r hr => ?_
      issued := fun r hr => ?_
      asked := fun t' o' c hm => ?_ } }
  · rcases ho' with ho' | ⟨hi', hu, ho'⟩
    · exact .inl ho'
    · refine .inr ⟨hi', hu, ?_⟩
      by_cases hk : (t', o', true) ∈ s.answered
      · right
        rcases ho' with ho' | ⟨r, hr, hrk⟩
        · exact absurd (mem_cons_of_mem _ hk) ho'
        · rcases mem_append.mp hr with hr | hr
          · exact ⟨r, hr, hrk⟩
          · rw [mem_singleton.mp hr] at hrk
            have hrk' : (t, o, commit) = (t', o', true) := hrk
            exact absurd (by rw [hrk']; exact hk) ha
      · exact .inl hk
  · rw [(hperm.map SubOpReply.key).nodup_iff, map_cons, nodup_cons]
    refine ⟨fun hm => ?_, h.msgs.nodup⟩
    obtain ⟨r', hr', hk⟩ := List.mem_map.mp hm
    have hk' : r'.key = (t, o, commit) := hk
    exact ha (by rw [← hk']; exact h.msgs.answered r' hr')
  · rcases mem_cons.mp (hperm.mem_iff.mp hr) with rfl | hr
    · exact mem_cons_self
    · exact mem_cons_of_mem _ (h.msgs.answered r hr)
  · rcases mem_cons.mp (hperm.mem_iff.mp hr) with rfl | hr
    · exact hi
    · exact h.msgs.issued r hr
  · rcases mem_cons.mp hm with hm | hm
    · cases hm
      exact (h.msgs.bound _ _ _ hi).1
    · exact h.msgs.asked t' o' c hm

theorem drop_inv {s : PG} (h : Inv s) (i : ℕ) : Inv { s with net := s.net.eraseIdx i } := by
  have hsub : (s.net.eraseIdx i ++ queued s.opQueue).Sublist (s.net ++ queued s.opQueue) :=
    (eraseIdx_sublist s.net i).append (.refl _)
  refine { h with
    owed := fun t g _ hg o ho => h.owed t g (by simp) hg o ?_
    msgs := { h.msgs with
      nodup := h.msgs.nodup.sublist (hsub.map _)
      answered := fun r hr => h.msgs.answered r (hsub.subset hr)
      issued := fun r hr => h.msgs.issued r (hsub.subset hr) } }
  rcases ho with ho | ⟨hi, hu, ho⟩
  · exact .inl ho
  · exact .inr ⟨hi, hu, ho.imp id fun ⟨r, hr, hk⟩ => ⟨r, mem_of_mem_eraseIdx hr, hk⟩⟩

/-- A reply from a process of the map is queued. -/
theorem queue_inv {s : PG} (h : Inv s) {i : ℕ} {r : SubOpReply} (hr : s.net[i]? = some r)
    (hu : s.up r.source = true) (hp : s.proc r.source = r.proc) :
    Inv { s with net := s.net.eraseIdx i, opQueue := s.opQueue ++ [.reply r] } := by
  obtain ⟨hlt, hget⟩ := List.getElem?_eq_some_iff.mp hr
  have hmem : r ∈ s.net := hget ▸ getElem_mem hlt
  have hq : queued (s.opQueue ++ [.reply r]) = queued s.opQueue ++ [r] := by
    rw [queued_append]; rfl
  have hperm : (s.net.eraseIdx i ++ queued (s.opQueue ++ [.reply r])).Perm
      (s.net ++ queued s.opQueue) := by
    rw [hq, ← List.append_assoc]
    refine perm_append_comm.trans ?_
    have hnet : (r :: s.net.eraseIdx i).Perm s.net := by
      rw [← hget]
      exact getElem_cons_eraseIdx_perm hlt
    exact hnet.append_right _
  refine { h with
    owed := fun t g _ hg o ho => h.owed t g (by simp) hg o ?_
    msgs := { h.msgs with
      nodup := (hperm.map SubOpReply.key).nodup_iff.mpr h.msgs.nodup
      answered := fun r' hr' => h.msgs.answered r' (hperm.mem_iff.mp hr')
      issued := fun r' hr' => h.msgs.issued r' (hperm.mem_iff.mp hr') } }
  rcases ho with ⟨r', hr', hk⟩ | ⟨hi, hu, ho⟩
  · have hr'' : r' ∈ queued s.opQueue ++ [r] := by rw [← hq]; exact hr'
    rcases mem_append.mp hr'' with hr' | hr'
    · exact .inl ⟨r', hr', hk⟩
    · rw [mem_singleton.mp hr'] at hk
      obtain ⟨ht, hs, hc⟩ : r.tid = t ∧ r.source = o ∧ r.commit = true := by
        simpa [SubOpReply.key] using hk
      have hi := h.msgs.issued r (mem_append_left _ hmem)
      rw [← hp, ht, hs] at hi
      rw [hs] at hu
      exact .inr ⟨hi, hu, .inr ⟨r, hmem, hk⟩⟩
  · exact .inr ⟨hi, hu, ho.imp id fun ⟨r, hr, hk⟩ => ⟨r, mem_of_mem_eraseIdx hr, hk⟩⟩

theorem handle_inv {s : PG} (h : Inv s) {w : Work} {q : List Work} (hq : s.opQueue = w :: q) :
    Inv (handle { s with opQueue := q } w) := by
  cases w with
  | op wantsAck wantsCommit =>
    have hqq : queued s.opQueue = queued q := by rw [hq]; rfl
    have h' : Inv { s with opQueue := q } := { h with
      owed := fun t g _ hg o ho => h.owed t g (by simp) hg o (by rw [OwedBy, hqq]; exact ho)
      msgs := { h.msgs with
        nodup := hqq ▸ h.msgs.nodup
        answered := hqq ▸ h.msgs.answered
        issued := hqq ▸ h.msgs.issued } }
    rw [handle]
    split_ifs with hp
    · exact opModify_inv h' wantsAck wantsCommit hp
    · exact h'
  | reply r =>
    obtain ⟨h', hw⟩ := dequeue_reply h hq
    have hr : r ∈ queued s.opQueue := by rw [hq, queued_cons_reply]; exact mem_cons_self
    refine subOpModifyReply_inv h' r (h.msgs.issued r (mem_append_right _ hr)) hw fun hc g hg => ?_
    exact h.owed _ g (by simp) hg _ (.inl ⟨r, hr, by simp [SubOpReply.key, hc]⟩)

/-- **One step keeps the invariant.** -/
theorem step_inv {s s' : PG} {a : Act} (h : Inv s) (hs : step s a = some s') : Inv s' := by
  unfold step at hs
  rw [if_neg (by simp [h.ok])] at hs
  cases a with
  | clientOp wantsAck wantsCommit =>
    cases hs
    have hq : queued (s.opQueue ++ [.op wantsAck wantsCommit]) = queued s.opQueue := by
      rw [queued_append]; exact append_nil _
    exact { h with
      owed := fun t g _ hg o ho => h.owed t g (by simp) hg o (by rw [OwedBy, ← hq]; exact ho)
      msgs := { h.msgs with
        nodup := by rw [hq]; exact h.msgs.nodup
        answered := by rw [hq]; exact h.msgs.answered
        issued := by rw [hq]; exact h.msgs.issued } }
  | answer t o p commit thru =>
    obtain ⟨⟨hi, ha⟩, ⟨⟩⟩ := ite_none_right_eq_some.mp hs
    exact answer_inv h thru hi ha
  | dispatch i =>
    dsimp only at hs
    split at hs
    · cases hs
    · next r hr =>
      split_ifs at hs with hu
      · cases hs
        exact queue_inv h hr hu.1 hu.2
      · cases hs
        exact drop_inv h i
  | dequeue =>
    dsimp only at hs
    split at hs
    · cases hs
    · next w q hq =>
      cases hs
      exact handle_inv h hq
  | storeCommit i =>
    dsimp only at hs
    split at hs
    · cases hs
    · next t thru hi =>
      cases hs
      exact storeCommit_inv h hi
  | newMap up acting =>
    obtain ⟨⟨hq, hnd, -, hup⟩, ⟨⟩⟩ := ite_none_right_eq_some.mp hs
    exact advanceMap_inv h up acting (by simpa using hq) hup hnd
  | otherTid =>
    cases hs
    exact { h with
      old := fun e he t ht => (h.old e he t ht).trans (Nat.le_succ _)
      present := fun t ht => (h.present t ht).trans (Nat.le_succ _)
      recent := fun t ht => (h.recent t ht).trans (Nat.le_succ _)
      msgs := { h.msgs with
        bound := fun t o p hm => ⟨(h.msgs.bound t o p hm).1.trans (Nat.le_succ _), (h.msgs.bound t o p hm).2⟩
        asked := fun t o c hm => (h.msgs.asked t o c hm).trans (Nat.le_succ _)
        early := fun t ht => h.msgs.early t ((Nat.lt_succ_self _).trans ht) } }
  | lastComplete v =>
    cases hs
    exact { h with msgs := { h.msgs with } }

theorem init_inv (whoami : ℕ) : Inv (init whoami) where
  ok := rfl
  backed := trivial
  old := by simp [init]
  present := by simp [init]
  nodup := by simp [init, PG.calls]
  recent := by simp [init, PG.calls]
  gathers := by simp [init]
  waiting := by simp [init]
  owed := by simp [init]
  gone := by simp [init]
  msgs := by constructor <;> simp [init, queued]
  acting := by simp [init]
  up := by simp [init]

/-- An operation of OSDs 0, 1 and 2: OSD 1 commits before it acks, OSD 2 is declared
failed with its commit on the way, which is dropped, and then the store of the
primary commits. -/
def failureRun : List Act :=
  [.newMap (fun o => o < 3) [0, 1, 2], .clientOp true true, .dequeue,
    .answer 1 1 1 true EVersion.zero, .dispatch 0, .dequeue,
    .answer 1 2 1 true EVersion.zero, .newMap (fun o => o < 2) [0, 1], .dispatch 0,
    .storeCommit 0]

end Osd
end Ceph
