/-
# The callbacks of the journal

Entries and their callbacks are in two queues. As long as the journal is not found full, and no commit finishes
while an entry of the new epoch is being written, the two go on together: the callbacks are completed in the order
of submission, each once, after its entry is written or committed.

When the journal is full, the entries that wait are dropped and their callbacks stay. From then on an entry that is
written completes the callback of an earlier one, and the last ones are never completed.
-/
import Ceph.Ebofs.Ring

namespace Ceph
namespace Ebofs
namespace FileJournal

open List Option
open Wire (Bytes)

variable (c : Config)

/-- The journal, with what was submitted, each with whether it has a callback, and what was written. -/
structure Traced where
  s : State
  submitted : List (Entry × Bool)
  written : List Entry

/-- A step, noted. -/
def traceStep (t : Traced) (a : Act) : Option Traced :=
  (step c t.s a).map fun s =>
    match a, t.s.mem with
    | .submit data oncommit, some m => ⟨s, t.submitted ++ [(⟨m.superEpoch, data⟩, oncommit)], t.written⟩
    | .writeDone, some m => ⟨s, t.submitted, t.written ++ (m.flight.toList.flatMap (·.bl)).map (·.entry)⟩
    | _, _ => ⟨s, t.submitted, t.written⟩

/-- What `submit_entry` queues for the callback. -/
def slot (x : Entry × Bool) : Option Entry := if x.2 then some x.1 else none

def callbacks (l : List (Entry × Bool)) : List Entry := l.flatMap fun x => (slot x).toList

/-- The callbacks completed are those of the first entries, each once, and these entries are written or committed;
when there is nothing left to write, no entry is left. -/
def Completed (t : Traced) : Prop :=
  ∃ done rest, t.submitted = done ++ rest ∧ t.s.acked = callbacks done ∧
    (∀ x ∈ t.s.acked, x ∈ t.written ∨ x.epoch < t.s.sbEpoch) ∧
    ((∀ m ∈ t.s.mem, m.writeq = [] ∧ m.flight = none) → rest = [])

/-- A mounted journal with nothing in it to write. -/
structure Fresh (s : State) (m : Mem) : Prop where
  mem : s.mem = some m
  queues : m.writeq = [] ∧ m.commitq = [] ∧ m.writingq = [] ∧ m.flight = none
  full : m.full = false
  epoch : s.sbEpoch ≤ m.superEpoch ∧ m.phase ≠ .written
  acked : s.acked = []

/-- The condition on a run of a mounted journal: no entry is found not to fit, and a commit finishes only when the
callbacks of what is being written are of the epochs before. -/
def Careful (t : Traced) : Act → Prop
  | .prepare => ∀ m ∈ t.s.mem, ∀ k ∈ take c m, k.full = false
  | .commitFinish => ∀ m ∈ t.s.mem, ∀ x ∈ m.writingq, x.epoch < m.superEpoch
  | .mount | .crash _ _ _ => False
  | _ => True

instance (t : Traced) : ∀ a : Act, Decidable (Careful c t a)
  | .prepare => inferInstanceAs (Decidable (∀ m ∈ _, ∀ k ∈ _, _))
  | .commitFinish => inferInstanceAs (Decidable (∀ m ∈ _, ∀ x ∈ _, _))
  | .mount | .crash _ _ _ => isFalse id
  | .submit _ _ | .seek | .writeDone | .commitStart | .superWritten => isTrue trivial

variable {c}

@[simp] theorem callbacks_append (l l' : List (Entry × Bool)) : callbacks (l ++ l') = callbacks l ++ callbacks l' :=
  flatMap_append ..

theorem mem_callbacks {l : List (Entry × Bool)} {x : Entry} (h : x ∈ callbacks l) : x ∈ l.map (·.1) := by
  obtain ⟨y, hy, hx⟩ := mem_flatMap.mp h
  obtain ⟨-, hyx⟩ := ite_none_right_eq_some.mp (mem_toList.mp hx)
  exact List.mem_map.mpr ⟨y, hy, some.inj hyx⟩

@[simp] theorem callbacks_singleton (x : Entry × Bool) : callbacks [x] = (slot x).toList := append_nil _

/-! ### Taking from the queues -/

/-- The entries that were queued are in the buffer or still queued, in order and with their callbacks. -/
def Pairs (all : List (Entry × Bool)) (t : Taken) : Prop :=
  ∃ fl queue, all = fl ++ queue ∧ t.writeq = queue.map (·.1) ∧ t.commitq = queue.map slot ∧
    t.writingq = callbacks fl ∧ t.bl.map (·.entry) = fl.map (·.1)

section take

variable {all : List (Entry × Bool)} {t t' : Taken} {q : List Entry} {x : Entry} {superEpoch : ℕ}

theorem Pairs.add (h : Pairs all t) (hq : t.writeq = x :: q) {i : Item} (hi : i.entry = x) : Pairs all (t.add i) := by
  obtain ⟨fl, queue, rfl, hw, hc, hwr, hbl⟩ := h
  obtain ⟨y, queue, rfl, rfl, rfl⟩ := map_eq_cons_iff.mp (hw.symm.trans hq)
  refine ⟨fl ++ [y], queue, by simp, by rw [Taken.add, hw]; rfl, by rw [Taken.add, hc]; rfl, ?_, ?_⟩
  · simp [Taken.add, hwr, hc]
  · simp [Taken.add, hbl, hi]

theorem prepareMultiWrite_pairs {pos : ℕ} {eleft bleft : ℤ} (h : Pairs all t) (hq : t.writeq = q)
    (ht : prepareMultiWrite c superEpoch q pos eleft bleft t = some t') (hfull : t'.full = false) : Pairs all t' := by
  induction q generalizing t pos eleft bleft with
  | nil =>
    cases ht
    exact h
  | cons x q ih =>
    rw [prepareMultiWrite] at ht
    by_cases hbig : t.bl ≠ [] ∧ bleft > 0 ∧ bleft < x.size
    · rw [if_pos hbig] at ht
      cases ht
      exact h
    rw [if_neg hbig] at ht
    obtain ⟨k, -, ht⟩ := bind_eq_some_iff.mp ht
    dsimp only at ht
    by_cases hk : k.full = true
    · rw [if_pos hk] at ht
      cases ht
      exact absurd hk (by simpa [Taken.check] using hfull)
    have hcheck : Pairs all (t.check k) := h
    split_ifs at ht
    · cases ht
      exact hcheck
    · cases ht
      exact hcheck.add hq rfl
    · exact ih (hcheck.add hq rfl) (by simp [Taken.add, Taken.check, hq]) ht

theorem prepareSingleDioWrite_pairs {pos : ℕ} (h : Pairs all t)
    (ht : prepareSingleDioWrite c superEpoch pos t = some t') (hfull : t'.full = false) : Pairs all t' := by
  rw [prepareSingleDioWrite] at ht
  cases hq : t.writeq with
  | nil =>
    rw [hq] at ht
    cases ht
    exact h
  | cons x q =>
    rw [hq] at ht
    obtain ⟨k, -, rfl⟩ := map_eq_some_iff.mp ht
    by_cases hk : k.full = true
    · simp [hk, Taken.check] at hfull
    · have hcheck : Pairs all (t.check k) := h
      rw [if_neg hk]
      exact hcheck.add hq rfl

theorem take_pairs {m : Mem} {queue : List (Entry × Bool)} (hw : m.writeq = queue.map (·.1))
    (hc : m.commitq = queue.map slot) (hwr : m.writingq = []) (ht : take c m = some t) (hfull : t.full = false) :
    Pairs queue t := by
  have h : Pairs queue ⟨m.header, false, m.full, m.writeq, m.commitq, m.writingq, []⟩ :=
    ⟨[], queue, rfl, hw, hc, hwr, rfl⟩
  unfold take at ht
  split_ifs at ht
  · exact prepareSingleDioWrite_pairs h ht hfull
  · exact prepareMultiWrite_pairs h rfl ht hfull

theorem dropBefore_pairs (e : ℕ) (queue : List (Entry × Bool)) (wq : List Entry) :
    ∃ dropped kept, queue = dropped ++ kept ∧ (∀ x ∈ dropped, x.1.epoch < e) ∧
      dropBefore e (queue.map (·.1)) (queue.map slot) wq =
        (kept.map (·.1), kept.map slot, wq ++ callbacks dropped) := by
  induction queue generalizing wq with
  | nil => exact ⟨[], [], rfl, nofun, by simp [dropBefore, callbacks]⟩
  | cons x queue ih =>
    rw [map_cons, map_cons, dropBefore]
    by_cases hx : x.1.epoch < e
    · obtain ⟨dropped, kept, rfl, hold, heq⟩ := ih (wq ++ (slot x).toList)
      refine ⟨x :: dropped, kept, rfl, forall_mem_cons.mpr ⟨hx, hold⟩, ?_⟩
      rw [if_pos hx, tail_cons, head?_cons, getD_some, heq, List.append_assoc]
      rfl
    · exact ⟨[], x :: queue, rfl, nofun, by rw [if_neg hx]; simp [callbacks]⟩

end take

/-! ### Runs -/

/-- The entries completed, being written and queued. -/
structure Paired (t : Traced) (m : Mem) (done fl queue : List (Entry × Bool)) : Prop where
  mem : t.s.mem = some m
  submitted : t.submitted = done ++ (fl ++ queue)
  acked : t.s.acked = callbacks done
  settled : ∀ x ∈ t.s.acked, x ∈ t.written ∨ x.epoch < t.s.sbEpoch
  writeq : m.writeq = queue.map (·.1)
  commitq : m.commitq = queue.map slot
  writingq : m.writingq = callbacks fl
  flight : fl ≠ [] → ∃ f, m.flight = some f ∧ f.oldHeader = m.header ∧ f.bl.map (·.entry) = fl.map (·.1)
  full : m.full = false
  epoch : t.s.sbEpoch ≤ m.superEpoch
  committed : m.phase = .written → t.s.sbEpoch = m.superEpoch

section run

variable {t t' : Traced} {m : Mem} {done fl queue : List (Entry × Bool)}

section

variable (h : Paired t m done fl queue)
include h

theorem Paired.completed : Completed t := by
  refine ⟨done, fl ++ queue, h.submitted, h.acked, h.settled, fun hquiet => ?_⟩
  obtain ⟨hw, hf⟩ := hquiet m h.mem
  have hfl : fl = [] := by
    by_contra hne
    obtain ⟨f, hsome, -⟩ := h.flight hne
    cases hf.symm.trans hsome
  rw [hfl, map_eq_nil_iff.mp (h.writeq.symm.trans hw)]
  rfl

theorem prepare_paired (hf : m.flight = none) {m' : Mem} (hm : prepare c m = some m')
    (hcare : ∀ k ∈ take c m, k.full = false) :
    ∃ fl' queue', Paired { t with s := { t.s with mem := some m' } } m' done fl' queue' := by
  have hfl : fl = [] := by
    by_contra hne
    obtain ⟨f, hsome, -⟩ := h.flight hne
    cases hf.symm.trans hsome
  subst hfl
  obtain ⟨k, hk, rfl⟩ := map_eq_some_iff.mp hm
  obtain ⟨fl', queue', rfl, hw, hc, hwr, hbl⟩ := take_pairs h.writeq h.commitq h.writingq hk (hcare k hk)
  refine ⟨fl', queue', ?_⟩
  by_cases hnone : k.bl = [] ∧ ¬ k.mustWriteHeader = true
  · rw [if_pos hnone]
    rw [hnone.1] at hbl
    obtain rfl := map_eq_nil_iff.mp hbl.symm
    exact ⟨rfl, h.submitted, h.acked, h.settled, hw, hc, hwr, fun hne => absurd rfl hne, hcare k hk, h.epoch,
      h.committed⟩
  · rw [if_neg hnone]
    exact ⟨rfl, h.submitted, h.acked, h.settled, hw, hc, hwr, fun _ => ⟨_, rfl, rfl, hbl⟩, hcare k hk, h.epoch,
      h.committed⟩

theorem commitFinish_paired (hph : m.phase = .written) {r : Mem × List Entry}
    (hr : commitEpochFinish c { m with phase := .idle } m.superEpoch = some r)
    (hcare : ∀ x ∈ m.writingq, x.epoch < m.superEpoch) :
    ∃ done' queue',
      Paired { t with s := { t.s with mem := some r.1, acked := t.s.acked ++ r.2 } } r.1 done' [] queue' := by
  obtain ⟨m1, hm1, rfl⟩ := map_eq_some_iff.mp hr
  -- the queues are as they were
  obtain ⟨header, writePos, rfl⟩ : ∃ header writePos, m1 = { m with phase := .idle, header, writePos } := by
    unfold trim at hm1
    dsimp only at hm1
    split_ifs at hm1
    · cases hm1
      exact ⟨_, _, rfl⟩
    · obtain ⟨_, -, rfl⟩ := map_eq_some_iff.mp hm1
      exact ⟨_, _, rfl⟩
    · cases hm1
      exact ⟨_, _, rfl⟩
  obtain ⟨dropped, kept, rfl, hold, heq⟩ := dropBefore_pairs m.superEpoch queue m.writingq
  rw [← h.writeq, ← h.commitq] at heq
  have hqueued : (dropBefore m.superEpoch m.writeq m.commitq m.writingq).2.2 = m.writingq ++ callbacks dropped :=
    congrArg (·.2.2) heq
  refine ⟨done ++ fl ++ dropped, kept, rfl, by simp [h.submitted], ?_, fun x hx => ?_, congrArg Prod.fst heq,
    congrArg (·.2.1) heq, rfl, fun hne => absurd rfl hne, h.full, h.epoch, nofun⟩
  · dsimp only
    rw [hqueued, h.acked, h.writingq, callbacks_append, callbacks_append, List.append_assoc]
  · dsimp only at hx
    rw [hqueued, mem_append, mem_append] at hx
    rcases hx with hx | hx | hx
    · exact h.settled x hx
    · exact .inr ((hcare x hx).trans_eq (h.committed hph).symm)
    · obtain ⟨y, hy, rfl⟩ := List.mem_map.mp (mem_callbacks hx)
      exact .inr ((hold y hy).trans_eq (h.committed hph).symm)

theorem writeDone_paired {f : Flight} (hf : m.flight = some f) (p : ℕ) :
    ∃ m' done', Paired ⟨doWriteDone c t.s m f p, t.submitted, t.written ++ f.bl.map (·.entry)⟩ m' done' [] queue := by
  have hkept : ∀ x ∈ t.s.acked, x ∈ t.written ++ f.bl.map (·.entry) ∨ x.epoch < t.s.sbEpoch := fun x hx =>
    (h.settled x hx).imp_left (mem_append_left _)
  by_cases hhead : f.oldHeader = m.header
  · rw [doWriteDone, if_pos hhead]
    refine ⟨_, done ++ fl, rfl, by simp [h.submitted], by simp [h.acked, h.writingq], fun x hx => ?_, h.writeq,
      h.commitq, rfl, fun hne => absurd rfl hne, h.full, h.epoch, h.committed⟩
    rcases mem_append.mp hx with hx | hx
    · exact hkept x hx
    · rw [h.writingq] at hx
      obtain ⟨f', hf', -, hbl⟩ := h.flight fun hnil => by rw [hnil] at hx; cases hx
      obtain rfl := some.inj (hf.symm.trans hf')
      exact .inl (mem_append_right _ (hbl ▸ mem_callbacks hx))
  · have hfl : fl = [] := by
      by_contra hne
      obtain ⟨f', hf', heq, -⟩ := h.flight hne
      exact hhead (some.inj (hf.symm.trans hf') ▸ heq)
    subst hfl
    have hnil : m.writingq = [] := h.writingq
    rw [doWriteDone, if_neg hhead, if_pos hnil]
    exact ⟨_, done, rfl, h.submitted, h.acked, hkept, h.writeq, h.commitq, h.writingq, fun hne => absurd rfl hne,
      h.full, h.epoch, h.committed⟩

theorem step_paired {a : Act} (hcare : Careful c t a) (hs : traceStep c t a = some t') :
    ∃ m' done' fl' queue', Paired t' m' done' fl' queue' := by
  obtain ⟨s', hstep, rfl⟩ := map_eq_some_iff.mp hs
  obtain ⟨-, hs⟩ := ite_none_left_eq_some.mp hstep
  simp only [h.mem] at hs ⊢
  cases a with
  | mount => exact hcare.elim
  | crash => exact hcare.elim
  | submit data oncommit =>
    cases hs
    refine ⟨_, done, fl, queue ++ [(⟨m.superEpoch, data⟩, oncommit)], rfl, by simp [h.submitted], h.acked, h.settled,
      ?_, ?_, h.writingq, h.flight, h.full, h.epoch, h.committed⟩
    · simp [h.full, h.writeq]
    · simp [h.commitq, slot]
  | prepare =>
    obtain ⟨⟨hf, -⟩, hs⟩ := ite_none_right_eq_some.mp hs
    cases hp : prepare c m with
    | none =>
      rw [hp] at hs
      cases hs
      exact ⟨m, done, fl, queue, { h with mem := rfl }⟩
    | some m' =>
      rw [hp] at hs
      cases hs
      obtain ⟨fl', queue', h'⟩ := prepare_paired h (isNone_iff_eq_none.mp hf) hp (hcare m h.mem)
      exact ⟨m', done, fl', queue', h'⟩
  | seek =>
    dsimp only at hs ⊢
    cases hf : m.flight with
    | none =>
      rw [hf] at hs
      cases hs
    | some f =>
      rw [hf] at hs
      obtain ⟨-, ⟨⟩⟩ := ite_none_right_eq_some.mp hs
      refine ⟨_, done, fl, queue, { h with mem := rfl, flight := fun hne => ?_ }⟩
      obtain ⟨f', hf', hrest⟩ := h.flight hne
      obtain rfl := some.inj (hf.symm.trans hf')
      exact ⟨_, rfl, hrest⟩
  | writeDone =>
    dsimp only at hs ⊢
    cases hf : m.flight with
    | none =>
      rw [hf] at hs
      cases hs
    | some f =>
      rw [hf] at hs
      dsimp only at hs
      cases hp : f.pos with
      | none =>
        rw [hp] at hs
        cases hs
      | some p =>
        rw [hp] at hs
        cases hs
        obtain ⟨m', done', h'⟩ := writeDone_paired (c := c) h hf p
        exact ⟨m', done', [], queue, by simpa [hf] using h'⟩
  | commitStart =>
    obtain ⟨-, ⟨⟩⟩ := ite_none_right_eq_some.mp hs
    rw [commitEpochStart, if_neg (by simp [h.full])]
    exact ⟨_, done, fl, queue, { h with mem := rfl, epoch := h.epoch.trans (Nat.le_succ _), committed := nofun }⟩
  | superWritten =>
    obtain ⟨-, ⟨⟩⟩ := ite_none_right_eq_some.mp hs
    exact ⟨_, done, fl, queue, { h with
      mem := rfl, epoch := le_rfl, committed := fun _ => rfl
      settled := fun x hx => (h.settled x hx).imp_right fun hx => hx.trans_le h.epoch }⟩
  | commitFinish =>
    obtain ⟨hph, hs⟩ := ite_none_right_eq_some.mp hs
    cases hr : commitEpochFinish c { m with phase := .idle } m.superEpoch with
    | none =>
      rw [hr] at hs
      cases hs
      exact ⟨m, done, fl, queue, { h with mem := rfl }⟩
    | some r =>
      rw [hr] at hs
      cases hs
      obtain ⟨done', queue', h'⟩ := commitFinish_paired h hph hr (hcare m h.mem)
      exact ⟨_, done', [], queue', h'⟩

end

/-- **Callbacks stay paired with their entries** in every run of a mounted journal that is careful. -/
theorem callbacks_paired {s : State} (hs : Fresh s m) (h : Run.Reach (traceStep c) (Careful c) ⟨s, [], []⟩ t) :
    Completed t := by
  have hstart : Paired ⟨s, [], []⟩ m [] [] [] :=
    { mem := hs.mem, submitted := rfl, acked := hs.acked, settled := by simp [hs.acked], writeq := hs.queues.1
      commitq := hs.queues.2.1, writingq := hs.queues.2.2.1, flight := fun hne => absurd rfl hne, full := hs.full
      epoch := hs.epoch.1, committed := fun hph => absurd hph hs.epoch.2 }
  obtain ⟨m', done, fl, queue, hp⟩ := h.inv (fun t => ∃ m done fl queue, Paired t m done fl queue)
    ⟨m, [], [], [], hstart⟩ fun _ _ _ ⟨_, _, _, _, hp⟩ hcare hst => step_paired hp hcare hst
  exact hp.completed

end run

def newMem : Mem := ⟨1, .idle, .clear, false, true, 88, [], [], [], none⟩

/-- A new journal. -/
def newTraced : Traced := ⟨{ init with mem := some newMem }, [], []⟩

theorem newTraced_fresh : Fresh newTraced.s newMem := ⟨rfl, ⟨rfl, rfl, rfl, rfl⟩, rfl, ⟨le_rfl, nofun⟩, rfl⟩

/-- Two entries, and a commit between them. -/
theorem callbacks_paired_two : ∃ t, Run.Reach (traceStep tiny) (Careful tiny) newTraced t ∧ t.s.acked.length = 2 ∧
    Completed t := by
  have hrun : ((Run.exec (traceStep tiny) (Careful tiny)
      (seekRun 1 ++ [.writeDone, .commitStart, .superWritten, .commitFinish] ++ seekRun 2 ++ [.writeDone])
        newTraced).map fun t => t.s.acked.length) = some 2 := by decide +kernel
  obtain ⟨t, ht, hlen⟩ := map_eq_some_iff.mp hrun
  exact ⟨t, Run.reach_of_exec ht, hlen, callbacks_paired newTraced_fresh (Run.reach_of_exec ht)⟩

/-- The first entry does not fit. When the journal is usable again, the next entry completes the callback of the
first, and its own is left. -/
theorem callbacks_shifted : ∃ t, Run.Reach (traceStep tiny) Run.anyAct newTraced t ∧ ¬ Completed t := by
  have hrun : ((Run.exec (traceStep tiny) Run.anyAct
      (seekRun 400 ++ [.writeDone, .commitStart, .superWritten, .commitFinish, .commitStart] ++
        seekRun 1 ++ [.writeDone]) newTraced).map fun t =>
          (t.submitted.map (·.2), t.s.acked.length, t.s.mem.map fun m => (m.writeq, m.flight.isNone))) =
      some ([true, true], 1, some ([], true)) := by decide +kernel
  obtain ⟨t, ht, heq⟩ := map_eq_some_iff.mp hrun
  obtain ⟨hsub, hlen, hmem⟩ : _ ∧ _ ∧ _ := by simpa only [Prod.mk.injEq] using heq
  refine ⟨t, Run.reach_of_exec ht, fun ⟨done, rest, hcut, hacked, _, hquiet⟩ => ?_⟩
  have hrest : rest = [] := hquiet fun m hm => by
    rw [hm] at hmem
    simpa using hmem
  rw [hrest, append_nil] at hcut
  rw [hacked, ← hcut] at hlen
  obtain ⟨x, l, hx, hx2, hl⟩ := map_eq_cons_iff.mp hsub
  obtain ⟨y, l, rfl, hy2, hl⟩ := map_eq_cons_iff.mp hl
  rw [hx, map_eq_nil_iff.mp hl] at hlen
  simp [callbacks, slot, hx2, hy2] at hlen

end FileJournal
end Ebofs
end Ceph
