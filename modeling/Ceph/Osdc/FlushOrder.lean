/-
# The callbacks of flushes

A context passed to `flush` waits at the write position of the time and is
finished when `ack_pos` has come that far. Over any order in which the writes
are acknowledged, `ack_pos` is the start of the lowest unfinished write, every
context is finished once, and by then each byte below its position was
acknowledged.

`is_readable` cuts off a partial entry by moving the write positions back, and
leaves the reader's where they were. If as many bytes are appended again, it
takes them for the same partial entry and moves `flush_pos` behind a write that
is in progress. Left out, too, are write buffers of 4 GiB, of which `_do_flush`
writes only a part.
-/
import Ceph.Osdc.Journaler
import Mathlib.Data.List.Perm.Basic
import Mathlib.Data.List.Range
import Mathlib.Data.List.Nodup

namespace Ceph
namespace Osdc
namespace FlushOrder

open Option Function
open List hiding length
open Wire (Bytes)
open Journaler

variable (c : Config)

/-! ### Contexts -/

/-- The journal with the contexts that were passed to it, each by a number and the write
position of the time. Contexts that act on the journal when they are finished do so in
the steps after it. -/
structure Callbacks where
  journal : State
  waitforFlush : List (ℕ × ℕ)     -- in the order of positions
  finished : List (ℕ × ℕ)
  issued : ℕ
  -- not in the source
  acked : List (ℕ × ℕ)            -- the ranges of bytes that were acknowledged: start and length

/-- A call: `flush` can have a context; that of `append_entry` is part of the action. -/
inductive Call
  | plain (a : Act)
  | flushSync (late : Bool)

def Call.act : Call → Act
  | .plain a => a
  | .flushSync late => .flush late

/-- A context is passed to `flush`. -/
def Call.onsync : Call → Bool
  | .plain (.append _ onsync _) => onsync
  | .plain _ => false
  | .flushSync _ => true

/-- The byte was acknowledged. -/
def Callbacks.Acked (w : Callbacks) (b : ℕ) : Prop := ∃ r ∈ w.acked, r.1 ≤ b ∧ b < r.1 + r.2

/-- `ack_pos` after the write at `start` has finished. -/
def ackAfter (s : State) (start : ℕ) : ℕ :=
  (((s.pendingFlush.filter fun p => p.start ≠ start).head?).map (·.start)).getD s.flushPos

/-- The end of `flush`: its context is finished, or waits. -/
def Callbacks.register (w : Callbacks) : Callbacks :=
  let s := w.journal
  if s.writePos = s.ackPos then
    { w with finished := w.finished ++ [(s.writePos, w.issued)], issued := w.issued + 1 }
  else
    { w with waitforFlush := w.waitforFlush ++ [(s.writePos, w.issued)], issued := w.issued + 1 }

/-- The waiters of `_finish_flush`. -/
def Callbacks.kick (w : Callbacks) (ackPos : ℕ) : Callbacks :=
  { w with
    finished := w.finished ++ w.waitforFlush.filter (·.1 ≤ ackPos)
    waitforFlush := w.waitforFlush.filter (ackPos < ·.1) }

/-- The ranges below `p`; what lies above was cut off. -/
def cutTo (p : ℕ) (rs : List (ℕ × ℕ)) : List (ℕ × ℕ) := rs.map fun r => (r.1, min r.2 (p - r.1))

/-- A new journal: what it finds in the file counts as acknowledged. -/
def opened (s : State) : Callbacks := ⟨s, [], [], 0, [(0, s.writePos)]⟩

/-- One step. -/
def step (w : Callbacks) (k : Call) : Option Callbacks :=
  (Journaler.step c w.journal k.act).map fun s =>
    if s.ok = false then { w with journal := s }
    else match k.act with
    | .restart _ => opened s
    | .finishFlush start =>
      let done := (w.journal.pendingFlush.filter (·.start = start)).map fun p => (p.start, p.bytes.length)
      { w with journal := s, acked := cutTo s.writePos (w.acked ++ done) }.kick (ackAfter w.journal start)
    | _ =>
      let w := { w with journal := s, acked := cutTo s.writePos w.acked }
      if k.onsync then w.register else w

def init : Callbacks := opened (Journaler.init c)

/-! ### What is claimed -/

/-- The positions and the callbacks are in order. -/
structure Ordered (w : Callbacks) : Prop where
  -- the lowest unfinished write
  none : w.journal.pendingFlush = [] → w.journal.ackPos = w.journal.flushPos
  lowest : w.journal.pendingFlush ≠ [] → ∃ p ∈ w.journal.pendingFlush, p.start = w.journal.ackPos
  above : ∀ p ∈ w.journal.pendingFlush, w.journal.ackPos ≤ p.start
  positions : w.journal.ackPos ≤ w.journal.flushPos ∧ w.journal.flushPos ≤ w.journal.writePos
  -- every context is finished or waits, once
  once : ((w.finished ++ w.waitforFlush).map (·.2)).Perm (List.range w.issued)
  waiting : ∀ x ∈ w.waitforFlush, w.journal.ackPos < x.1
  -- the assertions of `_finish_flush`
  asserts : ∀ p ∈ w.journal.pendingFlush, p.start ≥ w.journal.ackPos ∧ p.start < w.journal.flushPos

/-- What a step finishes has every byte below it acknowledged. -/
def Prompt (w w' : Callbacks) : Prop := ∀ x ∈ w'.finished, x ∉ w.finished → ∀ b < x.1, w'.Acked b

/-! ### The condition -/

/-- The reader has asked for no more than was acknowledged, or has nothing to read. -/
def Behind (s : State) : Prop := s.requestedPos ≤ s.ackPos ∨ s.readPos = s.writePos

instance (s : State) : Decidable (Behind s) := inferInstanceAs (Decidable (_ ∨ _))

/-- The condition on a run: the write buffer stays below 4 GiB, and the reader reads only
where it is behind. -/
def Orderly (w : Callbacks) (k : Call) : Prop :=
  match k.act with
  | .append x _ _ => w.journal.writeBuf.length + (if c.allowSplitEntries then 0 else c.stripeUnit) +
      (4 + x.length) < 2 ^ 32
  | .isReadable | .tryReadEntry | .readEntry | .waitForReadable | .finishRead => Behind w.journal
  | .finishFlush _ => w.journal.retries = [] ∨ Behind w.journal
  | _ => True

instance (w : Callbacks) (k : Call) : Decidable (Orderly c w k) := by
  unfold Orderly
  split <;> infer_instance

/-! ### The writer -/

/-- The ranges that are being written: start and length. -/
def ranges (s : State) : List (ℕ × ℕ) := s.pendingFlush.map fun p => (p.start, p.bytes.length)

/-- The writer's positions and buffers. -/
structure Writes (s : State) : Prop where
  buf : s.flushPos + s.writeBuf.length = s.writePos
  small : s.writeBuf.length < 2 ^ 32
  ack : s.ackPos = ((ranges s).head?.map (·.1)).getD s.flushPos
  sorted : (ranges s).Pairwise fun r q => r.1 + r.2 ≤ q.1
  pieces : ∀ r ∈ ranges s, 0 < r.2 ∧ r.1 + r.2 ≤ s.flushPos

/-- The bytes below `flush_pos` satisfy `A`, or are being written. -/
def Covered (A : ℕ → Prop) (s : State) : Prop :=
  ∀ b < s.flushPos, A b ∨ ∃ r ∈ ranges s, r.1 ≤ b ∧ b < r.1 + r.2

/-- The positions lie between `ack_pos` and the write position. -/
def Waiting (ps : List ℕ) (s : State) : Prop := ∀ p ∈ ps, s.ackPos < p ∧ p ≤ s.writePos

/-- The two states agree in what the writer has. -/
structure Same (s s' : State) : Prop where
  writePos : s'.writePos = s.writePos
  flushPos : s'.flushPos = s.flushPos
  ackPos : s'.ackPos = s.ackPos
  writeBuf : s'.writeBuf = s.writeBuf
  ranges : ranges s' = ranges s

/-- What the functions of the journal do to the writer, step by step. -/
inductive Moves : State → State → Prop
  | same {s s' : State} : Same s s' → Moves s s'
  | push {s : State} (b : Bytes) : s.writeBuf.length + b.length < 2 ^ 32 →
      Moves s { s with writePos := s.writePos + b.length, writeBuf := s.writeBuf ++ b }
  | flush {s s' : State} : doFlush s = some s' → Moves s s'
  | cut {s : State} (p : ℕ) : s.ackPos = s.writePos → p ≤ s.writePos →
      Moves s { s with writePos := p, flushPos := p, ackPos := p }
  | trans {s s' s'' : State} : Moves s s' → Moves s' s'' → Moves s s''

variable {c} {s s' : State} {A : ℕ → Prop} {ps : List ℕ}

theorem Writes.ack_le (h : Writes s) : s.ackPos ≤ s.flushPos := by
  rw [h.ack]
  cases hr : ranges s with
  | nil => simp
  | cons r rs =>
    have := h.pieces r (by rw [hr]; exact mem_cons_self)
    simp only [head?_cons, map_some, getD_some]
    omega

theorem Writes.flush_le (h : Writes s) : s.flushPos ≤ s.writePos := by
  rw [← h.buf]
  exact Nat.le_add_right _ _

/-- No write starts below `ack_pos`. -/
theorem Writes.ack_le_start (h : Writes s) {r : ℕ × ℕ} (hr : r ∈ ranges s) : s.ackPos ≤ r.1 := by
  rw [h.ack]
  have hs := h.sorted
  cases hrs : ranges s with
  | nil => simp [hrs] at hr
  | cons q rs =>
    rw [hrs] at hr hs
    rcases mem_cons.mp hr with rfl | hr
    · exact le_rfl
    · exact (Nat.le_add_right _ _).trans (rel_of_pairwise_cons hs hr)

theorem Writes.ranges_nil (h : Writes s) (heq : s.ackPos = s.writePos) : ranges s = [] := by
  cases hr : ranges s with
  | nil => rfl
  | cons r rs =>
    have hp := h.pieces r (by rw [hr]; exact mem_cons_self)
    have ha := h.ack
    rw [hr] at ha
    simp only [head?_cons, map_some, getD_some] at ha
    have := h.flush_le
    omega

/-! ### What the moves keep -/

/-- What a move keeps. -/
structure Good (A : ℕ → Prop) (ps : List ℕ) (s : State) : Prop where
  writes : Writes s
  covered : Covered A s
  waiting : Waiting ps s

theorem Good.same (h : Good A ps s) (hs : Same s s') : Good A ps s' where
  writes :=
    { buf := by rw [hs.flushPos, hs.writeBuf, hs.writePos]; exact h.writes.buf
      small := by rw [hs.writeBuf]; exact h.writes.small
      ack := by rw [hs.ackPos, hs.ranges, hs.flushPos]; exact h.writes.ack
      sorted := by rw [hs.ranges]; exact h.writes.sorted
      pieces := by rw [hs.ranges, hs.flushPos]; exact h.writes.pieces }
  covered := by
    unfold Covered
    rw [hs.ranges, hs.flushPos]
    exact h.covered
  waiting := by
    unfold Waiting
    rw [hs.ackPos, hs.writePos]
    exact h.waiting

theorem Good.push (h : Good A ps s) {b : Bytes} (hb : s.writeBuf.length + b.length < 2 ^ 32) :
    Good A ps { s with writePos := s.writePos + b.length, writeBuf := s.writeBuf ++ b } where
  writes := { h.writes with
    buf := by
      have := h.writes.buf
      simp only [length_append]
      omega
    small := by
      simp only [length_append]
      exact hb }
  covered := h.covered
  waiting p hp := ⟨(h.waiting p hp).1, (h.waiting p hp).2.trans (Nat.le_add_right _ _)⟩

/-- `_do_flush`, with a buffer below 4 GiB. -/
theorem doFlush_eq (h : Writes s) : doFlush s = some (if s.writePos = s.flushPos then s else
    { s with
      pendingFlush := s.pendingFlush ++ [⟨s.flushPos, s.writeBuf, false⟩]
      flushPos := s.writePos
      writeBuf := [] }) := by
  unfold doFlush
  by_cases heq : s.writePos = s.flushPos
  · rw [if_pos heq, if_pos heq]
  · have hbuf := h.buf
    have hlen : (s.writePos - s.flushPos) % 2 ^ 32 = s.writeBuf.length := by
      rw [Nat.mod_eq_of_lt (by have := h.small; omega)]
      omega
    have hlen' : length s.writeBuf = s.writeBuf.length := Nat.mod_eq_of_lt h.small
    rw [if_neg heq, if_neg heq]
    dsimp only
    rw [hlen, hlen', take_length, if_pos ⟨by omega, rfl⟩]

theorem Good.flush (h : Good A ps s) (hf : doFlush s = some s') : Good A ps s' := by
  rw [doFlush_eq h.writes] at hf
  by_cases heq : s.writePos = s.flushPos
  · rw [if_pos heq] at hf
    cases hf
    exact h
  · rw [if_neg heq] at hf
    cases hf
    have hbuf := h.writes.buf
    have hranges : ∀ f : State, f.pendingFlush = s.pendingFlush ++ [⟨s.flushPos, s.writeBuf, false⟩] →
        ranges f = ranges s ++ [(s.flushPos, s.writeBuf.length)] := by
      intro f hf
      simp [ranges, hf]
    refine ⟨⟨by simp, by simp, ?_, ?_, ?_⟩, ?_, h.waiting⟩
    · -- the new write is the lowest only if there was none
      rw [hranges _ rfl]
      rw [h.writes.ack]
      cases hr : ranges s <;> simp
    · rw [hranges _ rfl]
      refine pairwise_append.mpr ⟨h.writes.sorted, pairwise_singleton _ _, fun r hr q hq => ?_⟩
      rw [mem_singleton.mp hq]
      exact (h.writes.pieces r hr).2
    · rw [hranges _ rfl]
      intro r hr
      dsimp only
      rcases mem_append.mp hr with hr | hr
      · have := h.writes.pieces r hr
        omega
      · rw [mem_singleton.mp hr]
        omega
    · intro b hb
      rw [hranges _ rfl]
      by_cases hlt : b < s.flushPos
      · exact (h.covered b hlt).imp id fun ⟨r, hr, hb⟩ => ⟨r, mem_append_left _ hr, hb⟩
      · dsimp only at hb
        refine .inr ⟨_, mem_append_right _ (mem_singleton_self _), ?_⟩
        omega

theorem Good.cut (h : Good A ps s) {p : ℕ} (hack : s.ackPos = s.writePos) (hp : p ≤ s.writePos) :
    Good A ps { s with writePos := p, flushPos := p, ackPos := p } := by
  have hnil := h.writes.ranges_nil hack
  have hle := h.writes.ack_le
  have hbuf := h.writes.buf
  have hr : ranges { s with writePos := p, flushPos := p, ackPos := p } = [] := hnil
  refine ⟨⟨?_, h.writes.small, ?_, ?_, ?_⟩, ?_, fun q hq => ?_⟩
  · dsimp only
    omega
  · rw [hr]
    rfl
  · rw [hr]
    exact .nil
  · rw [hr]
    simp
  · intro b hb
    dsimp only at hb
    rcases h.covered b (by omega) with ha | ⟨r, hr', -⟩
    · exact .inl ha
    · rw [hnil] at hr'
      simp at hr'
  · have := h.waiting q hq
    omega

/-- **The moves keep it.** -/
theorem Good.moves (h : Good A ps s) (hm : Moves s s') : Good A ps s' := by
  induction hm with
  | same hs => exact h.same hs
  | push b hb => exact h.push hb
  | flush hf => exact h.flush hf
  | cut p hack hp => exact h.cut hack hp
  | trans _ _ ih1 ih2 => exact ih2 (ih1 h)

theorem Writes.good (h : Writes s) : Good (fun _ => True) [] s :=
  ⟨h, fun _ _ => .inl trivial, by simp [Waiting]⟩

theorem Writes.moves (h : Writes s) (hm : Moves s s') : Writes s' := (h.good.moves hm).writes

theorem Moves.refl (s : State) : Moves s s := .same ⟨rfl, rfl, rfl, rfl, rfl⟩

/-! ### Flushing -/

/-- What a flush does: nothing to the reader, and nothing to the write position and
`ack_pos`. -/
structure Flushes (s s' : State) : Prop where
  moves : Moves s s'
  writePos : s'.writePos = s.writePos
  ackPos : s'.ackPos = s.ackPos
  readPos : s'.readPos = s.readPos
  requestedPos : s'.requestedPos = s.requestedPos
  receivedPos : s'.receivedPos = s.receivedPos
  readBuf : s'.readBuf = s.readBuf
  buf : s'.writeBuf.length ≤ s.writeBuf.length
  ok : s'.ok = s.ok

variable {t : State}

theorem Flushes.trans (h : Flushes s s') (h' : Flushes s' t) : Flushes s t :=
  ⟨h.moves.trans h'.moves, h'.writePos.trans h.writePos, h'.ackPos.trans h.ackPos, h'.readPos.trans h.readPos,
    h'.requestedPos.trans h.requestedPos, h'.receivedPos.trans h.receivedPos, h'.readBuf.trans h.readBuf,
    h'.buf.trans h.buf, h'.ok.trans h.ok⟩

theorem Flushes.refl (s : State) : Flushes s s := ⟨.refl s, rfl, rfl, rfl, rfl, rfl, rfl, le_rfl, rfl⟩

theorem doFlush_flushes (h : Writes s) (hf : doFlush s = some s') : Flushes s s' := by
  have hm := Moves.flush hf
  rw [doFlush_eq h] at hf
  by_cases heq : s.writePos = s.flushPos
  · rw [if_pos heq] at hf
    cases hf
    exact .refl s
  · rw [if_neg heq] at hf
    cases hf
    exact ⟨hm, rfl, rfl, rfl, rfl, rfl, rfl, Nat.zero_le _, rfl⟩

variable {late : Bool}

theorem flush_flushes (h : Writes s) (hf : flush c late s = some s') : Flushes s s' := by
  have hhead : ∀ t : State, Flushes t (if late then writeHead t else t) := by
    intro t
    split_ifs
    · exact { Flushes.refl t with moves := .same ⟨rfl, rfl, rfl, rfl, rfl⟩ }
    · exact .refl t
  unfold flush at hf
  by_cases hdone : s.writePos = s.ackPos
  · rw [if_pos hdone] at hf
    obtain ⟨-, ⟨⟩⟩ := ite_none_right_eq_some.mp hf
    exact .refl s
  · rw [if_neg hdone] at hf
    obtain ⟨t, ht, rfl⟩ := map_eq_some_iff.mp hf
    refine Flushes.trans ?_ (hhead t)
    by_cases hall : s.writePos = s.flushPos
    · rw [if_pos hall] at ht
      obtain ⟨-, ⟨⟩⟩ := ite_none_right_eq_some.mp ht
      exact .refl s
    · rw [if_neg hall] at ht
      by_cases hbatch : length s.writeBuf < c.batchMax
      · rw [if_pos hbatch] at ht
        cases ht
        exact { Flushes.refl s with moves := .same ⟨rfl, rfl, rfl, rfl, rfl⟩ }
      · rw [if_neg hbatch] at ht
        exact doFlush_flushes h ht

/-! ### The reader -/

/-- The reader's positions. -/
structure Reads (s : State) : Prop where
  place : s.readPos + s.readBuf.length = s.receivedPos
  le : s.receivedPos ≤ s.requestedPos

/-- A state in which the reader can read. -/
structure At (s : State) : Prop where
  writes : Writes s
  reads : Reads s
  behind : Behind s

theorem Flushes.reads (hf : Flushes s s') (h : Reads s) : Reads s' := by
  refine ⟨?_, ?_⟩
  · rw [hf.readPos, hf.readBuf, hf.receivedPos]
    exact h.place
  · rw [hf.receivedPos, hf.requestedPos]
    exact h.le

theorem At.flushes (h : At s) (hf : Flushes s s') : At s' := by
  refine ⟨h.writes.moves hf.moves, hf.reads h.reads, ?_⟩
  unfold Behind
  rw [hf.requestedPos, hf.ackPos, hf.readPos, hf.writePos]
  exact h.behind

theorem At.same (h : At s) (t : State) (hs : Same s t) (hr : Reads t) (hb : Behind t) : Moves s t ∧ At t :=
  ⟨.same hs, h.writes.moves (.same hs), hr, hb⟩

/-- The write position stays, and where the reader is. -/
structure Stays (s s' : State) : Prop where
  writePos : s'.writePos = s.writePos
  receivedPos : s'.receivedPos = s.receivedPos
  readPos : s'.readPos = s.readPos
  ok : s'.ok = s.ok

theorem Stays.refl (s : State) : Stays s s := ⟨rfl, rfl, rfl, rfl⟩

theorem Stays.trans (h : Stays s s') (h' : Stays s' t) : Stays s t :=
  ⟨h'.writePos.trans h.writePos, h'.receivedPos.trans h.receivedPos, h'.readPos.trans h.readPos, h'.ok.trans h.ok⟩

theorem Flushes.stays (h : Flushes s s') : Stays s s' := ⟨h.writePos, h.receivedPos, h.readPos, h.ok⟩

theorem issueRead_moves {len : ℕ} (h : At s) (hi : issueRead c len s = some s') :
    Moves s s' ∧ At s' ∧ Stays s s' := by
  obtain ⟨s1, h1, hi⟩ := bind_eq_some_iff.mp hi
  have hf1 := doFlush_flushes h.writes h1
  have ha1 := h.flushes hf1
  suffices hgoal : Moves s1 s' ∧ At s' ∧ Stays s1 s' by
    obtain ⟨hm, ha, hst⟩ := hgoal
    exact ⟨hf1.moves.trans hm, ha, hf1.stays.trans hst⟩
  by_cases hread : s1.isReading
  · rw [if_pos hread] at hi
    cases hi
    exact ⟨.refl _, ha1, .refl _⟩
  · rw [if_neg hread] at hi
    obtain ⟨⟨heq, hle⟩, hi⟩ := ite_none_right_eq_some.mp hi
    by_cases hstuck : s1.requestedPos = s1.ackPos
    · rw [if_pos hstuck] at hi
      obtain ⟨-, hi⟩ := ite_none_right_eq_some.mp hi
      obtain ⟨s2, h2, hi⟩ := bind_eq_some_iff.mp hi
      obtain ⟨-, hi⟩ := ite_none_right_eq_some.mp hi
      have hf2 : Flushes s1 s2 := by
        split_ifs at h2
        · exact flush_flushes ha1.writes h2
        · cases h2
          exact .refl _
      have ha2 := ha1.flushes hf2
      cases hi
      obtain ⟨hm3, ha3⟩ := ha2.same { s2 with retries := s2.retries ++ [s2.flushPos] }
        ⟨rfl, rfl, rfl, rfl, rfl⟩ { ha2.reads with } ha2.behind
      exact ⟨hf2.moves.trans hm3, ha3, { hf2.stays with }⟩
    · rw [if_neg hstuck] at hi
      cases hi
      set n := if s1.requestedPos + len > s1.ackPos then s1.ackPos - s1.requestedPos else len with hn
      have hle' : s1.requestedPos + n ≤ s1.ackPos := by
        rw [hn]
        split_ifs
        · omega
        · omega
      obtain ⟨hm2, ha2⟩ := ha1.same { s1 with requestedPos := s1.requestedPos + n } ⟨rfl, rfl, rfl, rfl, rfl⟩
        ⟨ha1.reads.place, ha1.reads.le.trans (Nat.le_add_right _ _)⟩ (.inl hle')
      exact ⟨hm2, ha2, rfl, rfl, rfl, rfl⟩

variable {r : State × Bool}

/-- **What `is_readable` does**; a partial entry is cut off only when everything is
acknowledged. -/
theorem isReadable_moves (h : At s) (hi : isReadable c s = some r) :
    Moves s r.1 ∧ At r.1 ∧ (r.2 = true → r.1 = s ∧ s.readPos ≠ s.writePos) ∧
      (s.receivedPos ≠ s.writePos ∨ s.readPos = s.writePos → Stays s r.1) := by
  unfold isReadable at hi
  by_cases hend : s.readPos = s.writePos
  · rw [if_pos hend] at hi
    cases hi
    exact ⟨.refl s, h, by simp, fun _ => .refl s⟩
  · rw [if_neg hend] at hi
    by_cases hready : s.Ready
    · rw [if_pos hready] at hi
      cases hi
      exact ⟨.refl s, h, fun _ => ⟨rfl, hend⟩, fun _ => .refl s⟩
    · rw [if_neg hready] at hi
      by_cases htail : s.receivedPos = s.writePos
      · rw [if_pos htail] at hi
        obtain ⟨t, ht, rfl⟩ := map_eq_some_iff.mp hi
        obtain ⟨-, ⟨⟩⟩ := ite_none_right_eq_some.mp ht
        have hreq : s.requestedPos ≤ s.ackPos := h.behind.resolve_right hend
        have hack : s.ackPos = s.writePos := by
          have := h.reads.le
          have := h.writes.ack_le
          have := h.writes.flush_le
          omega
        have hle : s.readPos ≤ s.writePos := by
          have := h.reads.place
          omega
        have hm : Moves s { s with
            writePos := s.readPos, flushPos := s.readPos, ackPos := s.readPos, tail := [], repaired := true } :=
          (Moves.cut s.readPos hack hle).trans (.same ⟨rfl, rfl, rfl, rfl, rfl⟩)
        exact ⟨hm, ⟨h.writes.moves hm, { h.reads with }, .inr rfl⟩, by simp,
          fun hs => (hs.elim (absurd htail) hend).elim⟩
      · rw [if_neg htail] at hi
        by_cases hread : s.isReading
        · rw [if_pos hread] at hi
          cases hi
          exact ⟨.refl s, h, by simp, fun _ => .refl s⟩
        · rw [if_neg hread] at hi
          obtain ⟨t, ht, rfl⟩ := map_eq_some_iff.mp hi
          have hfetch : ∀ n, Moves s { s with fetchLen := n } ∧ At { s with fetchLen := n } := fun n =>
            h.same _ ⟨rfl, rfl, rfl, rfl, rfl⟩ { h.reads with } h.behind
          obtain ⟨hm, ha, hst⟩ := issueRead_moves (hfetch _).2 ht
          exact ⟨(hfetch _).1.trans hm, ha, by simp, fun _ => { hst with }⟩

theorem prefetch_moves (h : At s) (hp : prefetch c s = some s') : Moves s s' ∧ At s' := by
  unfold prefetch at hp
  split_ifs at hp
  · obtain ⟨hm, ha, -⟩ := issueRead_moves h hp
    exact ⟨hm, ha⟩
  · cases hp
    exact ⟨.refl s, h⟩

theorem takeEntry_moves (h : At s) (hne : s.readPos ≠ s.writePos) (ht : takeEntry s = some s') :
    Moves s s' ∧ At s' := by
  obtain ⟨hcond, ⟨⟩⟩ := ite_none_right_eq_some.mp ht
  have hlen : length s.readBuf ≤ s.readBuf.length := Nat.mod_le _ _
  have hplace := h.reads.place
  refine h.same _ ⟨rfl, rfl, rfl, rfl, rfl⟩ ⟨?_, h.reads.le⟩ (.inl (h.behind.resolve_right hne))
  simp only [length_drop]
  omega

theorem tryReadEntry_moves (h : At s) (ht : tryReadEntry c s = some r) : Moves s r.1 ∧ At r.1 := by
  obtain ⟨⟨s1, b⟩, h1, ht⟩ := bind_eq_some_iff.mp ht
  obtain ⟨hm1, ha1, hsame, -⟩ := isReadable_moves h h1
  cases b with
  | false =>
    cases ht
    exact ⟨hm1, ha1⟩
  | true =>
    obtain ⟨hs1, hne⟩ := hsame rfl
    obtain ⟨s2, h2, ht⟩ := bind_eq_some_iff.mp ht
    obtain ⟨s3, h3, rfl⟩ := map_eq_some_iff.mp ht
    obtain ⟨hm2, ha2⟩ := takeEntry_moves ha1 (by rw [hs1]; exact hne) h2
    obtain ⟨hm3, ha3⟩ := prefetch_moves ha2 h3
    exact ⟨hm1.trans (hm2.trans hm3), ha3⟩

theorem readEntry_moves (h : At s) (hr : readEntry c s = some s') : Moves s s' ∧ At s' := by
  obtain ⟨-, hr⟩ := ite_none_left_eq_some.mp hr
  obtain ⟨⟨s1, b⟩, h1, hr⟩ := bind_eq_some_iff.mp hr
  obtain ⟨hm1, ha1, -⟩ := isReadable_moves h h1
  cases b with
  | false =>
    cases hr
    obtain ⟨hm2, ha2⟩ := ha1.same { s1 with readBl := true } ⟨rfl, rfl, rfl, rfl, rfl⟩
      { ha1.reads with } ha1.behind
    exact ⟨hm1.trans hm2, ha2⟩
  | true =>
    obtain ⟨r, h2, hr⟩ := bind_eq_some_iff.mp hr
    obtain ⟨-, ⟨⟩⟩ := ite_none_right_eq_some.mp hr
    obtain ⟨hm2, ha2⟩ := tryReadEntry_moves ha1 h2
    exact ⟨hm1.trans hm2, ha2⟩

theorem waitForReadable_moves (h : At s) (hr : waitForReadable c s = some s') : Moves s s' ∧ At s' := by
  obtain ⟨⟨s1, b⟩, h1, hr⟩ := bind_eq_some_iff.mp hr
  obtain ⟨hm1, ha1, -⟩ := isReadable_moves h h1
  obtain ⟨-, ⟨⟩⟩ := ite_none_left_eq_some.mp hr
  obtain ⟨hm2, ha2⟩ := ha1.same { s1 with onReadable := true } ⟨rfl, rfl, rfl, rfl, rfl⟩
    { ha1.reads with } ha1.behind
  exact ⟨hm1.trans hm2, ha2⟩

theorem wakeReaders_moves (h : At s) (hw : wakeReaders c s = some s') : Moves s s' ∧ At s' := by
  obtain ⟨hm0, ha0⟩ := h.same { s with onReadable := false } ⟨rfl, rfl, rfl, rfl, rfl⟩
    { h.reads with } h.behind
  unfold wakeReaders at hw
  dsimp only at hw
  split_ifs at hw
  · obtain ⟨r, h1, hw⟩ := bind_eq_some_iff.mp hw
    obtain ⟨-, ⟨⟩⟩ := ite_none_right_eq_some.mp hw
    obtain ⟨hm1, ha1⟩ := tryReadEntry_moves ha0 h1
    obtain ⟨hm2, ha2⟩ := ha1.same { r.1 with readBl := false } ⟨rfl, rfl, rfl, rfl, rfl⟩
      { ha1.reads with } ha1.behind
    exact ⟨hm0.trans (hm1.trans hm2), ha2⟩
  · cases hw
    exact ⟨hm0, ha0⟩

theorem finishRead_moves (h : At s) (hf : finishRead c s = some s') : Moves s s' ∧ At s' := by
  obtain ⟨hle, hf⟩ := ite_none_right_eq_some.mp hf
  set got := (s.file.drop s.receivedPos).take (s.requestedPos - s.receivedPos) with hgot
  obtain ⟨hm0, ha0⟩ := h.same { s with
      receivedPos := s.receivedPos + got.length, readBuf := s.readBuf ++ got } ⟨rfl, rfl, rfl, rfl, rfl⟩
    ⟨by
      have := h.reads.place
      simp only [length_append]
      omega, hle⟩ h.behind
  obtain ⟨⟨s1, b⟩, h1, hf⟩ := bind_eq_some_iff.mp hf
  obtain ⟨hm1, ha1, -⟩ := isReadable_moves ha0 h1
  obtain ⟨s2, h2, hf⟩ := bind_eq_some_iff.mp hf
  have hwake : Moves s1 s2 ∧ At s2 := by
    split_ifs at h2
    · exact wakeReaders_moves ha1 h2
    · cases h2
      exact ⟨.refl _, ha1⟩
  obtain ⟨hm3, ha3⟩ := prefetch_moves hwake.2 hf
  exact ⟨hm0.trans (hm1.trans (hwake.1.trans hm3)), ha3⟩

/-- The retries of `_finish_flush`; the write position is ahead of what was received, so
nothing is cut off. -/
theorem retryReads_moves : ∀ (n : ℕ) {s s' : State}, At s → s.receivedPos ≠ s.writePos ∨ s.readPos = s.writePos →
    retryReads c n s = some s' → Moves s s' ∧ At s' ∧ Stays s s'
  | 0, s, s', h, _, hr => by
    cases hr
    exact ⟨.refl s, h, .refl s⟩
  | n + 1, s, s', h, hne, hr => by
    obtain ⟨r, h1, hr⟩ := bind_eq_some_iff.mp hr
    obtain ⟨hm1, ha1, -, hst⟩ := isReadable_moves h h1
    have hst := hst hne
    obtain ⟨hm2, ha2, hst2⟩ := retryReads_moves n ha1
      (by rw [hst.receivedPos, hst.writePos, hst.readPos]; exact hne) hr
    exact ⟨hm1.trans hm2, ha2, hst.trans hst2⟩

/-! ### Appending -/

theorem pad_moves (h : Writes s) (hr : Reads s) {n : ℕ}
    (hb : s.writeBuf.length + (if c.allowSplitEntries then 0 else c.stripeUnit) < 2 ^ 32)
    (hp : pad c n late s = some s') : Moves s s' ∧ Reads s' ∧
      s'.writeBuf.length ≤ s.writeBuf.length + if c.allowSplitEntries then 0 else c.stripeUnit := by
  unfold pad at hp
  by_cases hspan : c.allowSplitEntries = false ∧ s.spans c n
  · rw [if_pos hspan] at hp
    set w := s.writePos + c.stripeUnit - (s.writePos + c.stripeUnit) % c.stripeUnit with hw
    obtain ⟨hroom, hp⟩ := ite_none_right_eq_some.mp hp
    have hunit : (if c.allowSplitEntries = true then 0 else c.stripeUnit) = c.stripeUnit := by
      rw [if_neg (by simp [hspan.1])]
    have hk : (replicate (w - s.writePos) (0 : UInt8)).length = w - s.writePos := length_replicate
    have hpush := Moves.push (s := s) (replicate (w - s.writePos) 0) (by rw [hk]; omega)
    have hpos : s.writePos + (replicate (w - s.writePos) (0 : UInt8)).length = w := by
      omega
    rw [hpos] at hpush
    have hf := flush_flushes (h.moves hpush) hp
    refine ⟨hpush.trans hf.moves, hf.reads ⟨hr.place, hr.le⟩, hf.buf.trans ?_⟩
    simp only [length_append, hk]
    omega
  · rw [if_neg hspan] at hp
    cases hp
    exact ⟨.refl _, hr, Nat.le_add_right _ _⟩

theorem length_enc (x : Bytes) : (Wire.blob.enc x).length = 4 + x.length := by
  simp [Wire.blob]

variable {x : Bytes}

theorem cacheEntry_moves (hr : Reads s) (hp : cacheEntry c x s = some s') :
    Same s s' ∧ Reads s' := by
  unfold cacheEntry at hp
  split_ifs at hp with hcache hpos
  · cases hp
    have hplace := hr.place
    refine ⟨⟨rfl, rfl, rfl, rfl, rfl⟩, ?_, le_rfl⟩
    simp only [length_append, length_enc]
    omega
  · cases hp
    exact ⟨⟨rfl, rfl, rfl, rfl, rfl⟩, hr⟩

theorem appendEntry_moves (h : Writes s) (hr : Reads s) {onsync : Bool}
    (hb : s.writeBuf.length + (if c.allowSplitEntries then 0 else c.stripeUnit) + (4 + x.length) < 2 ^ 32)
    (ha : appendEntry c x onsync late s = some s') : Moves s s' ∧ Reads s' := by
  obtain ⟨s1, h1, ha⟩ := bind_eq_some_iff.mp ha
  obtain ⟨s2, h2, ha⟩ := bind_eq_some_iff.mp ha
  obtain ⟨hm1, hr1, hl1⟩ := pad_moves h hr (by omega) h1
  obtain ⟨hs2, hr2⟩ := cacheEntry_moves hr1 h2
  have hpush : Moves s2 (pushEntry x s2) := by
    have := Moves.push (s := s2) (Wire.blob.enc x) (by rw [hs2.writeBuf, length_enc]; omega)
    rw [length_enc] at this
    exact this.trans (.same ⟨rfl, rfl, rfl, rfl, rfl⟩)
  have hm : Moves s (pushEntry x s2) := hm1.trans ((Moves.same hs2).trans hpush)
  have hr3 : Reads (pushEntry x s2) := { hr2 with }
  split_ifs at ha
  · have hf := flush_flushes (h.moves hm) ha
    exact ⟨hm.trans hf.moves, hf.reads hr3⟩
  · cases ha
    exact ⟨hm, hr3⟩

/-! ### Acknowledgements -/

/-- The journal after a write has finished, before the waiters are kicked. -/
def ackedAt (start : ℕ) (s : State) : State :=
  { s with
    pendingFlush := s.pendingFlush.filter fun p => p.start ≠ start
    ackPos := ackAfter s start
    retries := s.retries.filter (ackAfter s start < ·) }

theorem ranges_ackedAt (start : ℕ) (s : State) :
    ranges (ackedAt start s) = (ranges s).filter fun r => r.1 ≠ start := by
  simp only [ranges, ackedAt, List.filter_map]
  rfl

variable {start : ℕ}

theorem finishFlush_eq (h : finishFlush c start s = some s') :
    retryReads c (s.retries.countP (· ≤ ackAfter s start)) (ackedAt start s) = some s' :=
  (ite_none_right_eq_some.mp h).2

/-- `ack_pos` moves forward. -/
theorem Writes.ack_le_ackAfter (h : Writes s) (start : ℕ) : s.ackPos ≤ ackAfter s start := by
  have hr : ackAfter s start = ((ranges (ackedAt start s)).head?.map (·.1)).getD s.flushPos := by
    simp [ackAfter, ranges, ackedAt, head?_map, comp_def]
  rw [hr, ranges_ackedAt]
  cases hf : (ranges s).filter fun r => r.1 ≠ start with
  | nil => exact h.ack_le
  | cons r rs =>
    exact h.ack_le_start (mem_of_mem_filter (by rw [hf]; exact mem_cons_self))

/-- **A write has finished**: its bytes are acknowledged, and the waiters that are left
are above `ack_pos`. -/
theorem Good.ackedAt {A' : ℕ → Prop} {ps' : List ℕ} (h : Good A ps s) (hA : ∀ b, A b → A' b)
    (hdone : ∀ r ∈ ranges s, r.1 = start → ∀ b, r.1 ≤ b → b < r.1 + r.2 → A' b)
    (hps : ∀ p ∈ ps', p ∈ ps ∧ ackAfter s start < p) : Good A' ps' (ackedAt start s) := by
  have hr := ranges_ackedAt start s
  have hsub : (ranges (FlushOrder.ackedAt start s)).Sublist (ranges s) := by
    rw [hr]
    exact filter_sublist
  refine ⟨⟨h.writes.buf, h.writes.small, ?_, h.writes.sorted.sublist hsub,
    fun r hr' => h.writes.pieces r (hsub.subset hr')⟩, fun b hb => ?_, fun p hp => ?_⟩
  · simp [FlushOrder.ackedAt, ackAfter, ranges, head?_map, comp_def]
  · rcases h.covered b hb with ha | ⟨r, hr', h1, h2⟩
    · exact .inl (hA b ha)
    · by_cases hs : r.1 = start
      · exact .inl (hdone r hr' hs b h1 h2)
      · rw [hr]
        exact .inr ⟨r, mem_filter.mpr ⟨hr', by simpa using hs⟩, h1, h2⟩
  · exact ⟨(hps p hp).2, (h.waiting p (hps p hp).1).2⟩

/-- **What `_finish_flush` does** to the journal. -/
theorem finishFlush_moves (h : Writes s) (hr : Reads s) (hs : start < s.flushPos)
    (hb : s.retries = [] ∨ Behind s) (hge : s.ackPos ≤ start) (hf : finishFlush c start s = some s') :
    Moves (ackedAt start s) s' ∧ Reads s' ∧ s'.writePos = s.writePos ∧ s'.ok = s.ok := by
  have hf := finishFlush_eq hf
  rcases hb with hnil | hb
  · rw [hnil] at hf
    cases hf
    exact ⟨.refl _, ⟨hr.place, hr.le⟩, rfl, rfl⟩
  · have hack := h.ack_le_ackAfter start
    have hgood : Good (fun _ => True) [] (FlushOrder.ackedAt start s) :=
      h.good.ackedAt (fun _ _ => trivial) (fun _ _ _ _ _ _ => trivial) (by simp)
    have hat : At (FlushOrder.ackedAt start s) :=
      ⟨hgood.writes, ⟨hr.place, hr.le⟩, hb.imp (fun hle => hle.trans hack) id⟩
    have hne : s.receivedPos ≠ s.writePos ∨ s.readPos = s.writePos := by
      refine hb.imp (fun hle => ?_) id
      have := hr.le
      have := h.flush_le
      omega
    obtain ⟨hm, ha, hst⟩ := retryReads_moves _ hat hne hf
    exact ⟨hm, ha.reads, hst.writePos, hst.ok⟩

/-! ### Every run -/

theorem after_moves {r : Option State} (hr : Reads s) (h : ∀ t, r = some t → Moves s t ∧ Reads t) :
    Moves s (s.after r) ∧ Reads (s.after r) := by
  cases r with
  | none => exact ⟨.same ⟨rfl, rfl, rfl, rfl, rfl⟩, ⟨hr.place, hr.le⟩⟩
  | some t => exact h t rfl

variable {k : Call}

/-- **What a step does** to the journal, but for acknowledgements and restarts. -/
theorem step_moves {w : Callbacks} (h : Writes w.journal) (hr : Reads w.journal) (hok : Orderly c w k)
    (hs : Journaler.step c w.journal k.act = some s') (hack : ∀ start, k.act ≠ .finishFlush start)
    (hre : ∀ part, k.act ≠ .restart part) : Moves w.journal s' ∧ Reads s' := by
  unfold Orderly at hok
  obtain ⟨-, hs⟩ := ite_none_left_eq_some.mp hs
  have hat : Behind w.journal → At w.journal := fun hb => ⟨h, hr, hb⟩
  generalize w.journal = s at *
  cases ha : k.act with
  | append x onsync late =>
    rw [ha] at hok hs
    cases hs
    exact after_moves hr fun t ht => appendEntry_moves h hr hok ht
  | flush late =>
    rw [ha] at hs
    cases hs
    refine after_moves hr fun t ht => ?_
    have hf := flush_flushes h ht
    exact ⟨hf.moves, hf.reads hr⟩
  | delayedFlush =>
    rw [ha] at hs
    obtain ⟨-, ⟨⟩⟩ := ite_none_right_eq_some.mp hs
    refine after_moves hr fun t ht => ?_
    have hm : Moves s { s with delayFlush := false } := .same ⟨rfl, rfl, rfl, rfl, rfl⟩
    have hf := doFlush_flushes (h.moves hm) ht
    exact ⟨hm.trans hf.moves, hf.reads ⟨hr.place, hr.le⟩⟩
  | stored start =>
    rw [ha] at hs
    dsimp only at hs
    split at hs
    · cases hs
    · cases hs
      refine ⟨.same ⟨rfl, rfl, rfl, rfl, ?_⟩, ⟨hr.place, hr.le⟩⟩
      simp only [ranges, List.map_map]
      refine map_congr_left fun p _ => ?_
      simp only [comp_apply]
      split_ifs
      · rfl
      · rfl
  | finishFlush start => exact absurd ha (hack start)
  | writeHead =>
    rw [ha] at hs
    cases hs
    exact ⟨.same ⟨rfl, rfl, rfl, rfl, rfl⟩, ⟨hr.place, hr.le⟩⟩
  | finishWriteHead =>
    rw [ha] at hs
    dsimp only at hs
    split at hs
    · cases hs
    · cases hs
      exact ⟨.same ⟨rfl, rfl, rfl, rfl, rfl⟩, ⟨hr.place, hr.le⟩⟩
  | isReadable =>
    rw [ha] at hok hs
    cases hs
    refine after_moves hr fun t ht => ?_
    obtain ⟨r, hi, rfl⟩ := map_eq_some_iff.mp ht
    obtain ⟨hm, ha, -⟩ := isReadable_moves (hat hok) hi
    exact ⟨hm, ha.reads⟩
  | tryReadEntry =>
    rw [ha] at hok hs
    cases hs
    refine after_moves hr fun t ht => ?_
    obtain ⟨r, hi, rfl⟩ := map_eq_some_iff.mp ht
    obtain ⟨hm, ha⟩ := tryReadEntry_moves (hat hok) hi
    exact ⟨hm, ha.reads⟩
  | readEntry =>
    rw [ha] at hok hs
    cases hs
    refine after_moves hr fun t ht => ?_
    obtain ⟨hm, ha⟩ := readEntry_moves (hat hok) ht
    exact ⟨hm, ha.reads⟩
  | waitForReadable =>
    rw [ha] at hok hs
    cases hs
    refine after_moves hr fun t ht => ?_
    obtain ⟨hm, ha⟩ := waitForReadable_moves (hat hok) ht
    exact ⟨hm, ha.reads⟩
  | finishRead =>
    rw [ha] at hok hs
    obtain ⟨-, ⟨⟩⟩ := ite_none_right_eq_some.mp hs
    refine after_moves hr fun t ht => ?_
    obtain ⟨hm, ha⟩ := finishRead_moves (hat hok) ht
    exact ⟨hm, ha.reads⟩
  | setReadPos p =>
    rw [ha] at hs
    cases hs
    refine after_moves hr fun t ht => ?_
    obtain ⟨-, ⟨⟩⟩ := ite_none_right_eq_some.mp ht
    exact ⟨.same ⟨rfl, rfl, rfl, rfl, rfl⟩, ⟨rfl, le_rfl⟩⟩
  | restart part => exact absurd ha (hre part)

/-- The journal and its callbacks. -/
structure Inv (w : Callbacks) : Prop where
  good : Good w.Acked (w.waitforFlush.map (·.1)) w.journal
  reads : Reads w.journal
  once : ((w.finished ++ w.waitforFlush).map (·.2)).Perm (List.range w.issued)

variable {rs : List (ℕ × ℕ)}

theorem mem_cutTo {p b : ℕ} (hb : b < p) :
    (∃ r ∈ cutTo p rs, r.1 ≤ b ∧ b < r.1 + r.2) ↔ ∃ r ∈ rs, r.1 ≤ b ∧ b < r.1 + r.2 := by
  simp only [cutTo, List.mem_map]
  constructor
  · rintro ⟨-, ⟨r, hr, rfl⟩, h1, h2⟩
    exact ⟨r, hr, h1, by omega⟩
  · rintro ⟨r, hr, h1, h2⟩
    exact ⟨_, ⟨r, hr, rfl⟩, h1, by dsimp only; omega⟩

theorem Good.cutTo (h : Good (fun b => ∃ r ∈ rs, r.1 ≤ b ∧ b < r.1 + r.2) ps s) :
    Good (fun b => ∃ r ∈ cutTo s.writePos rs, r.1 ≤ b ∧ b < r.1 + r.2) ps s :=
  { h with
    covered := fun b hb => (h.covered b hb).imp (mem_cutTo (hb.trans_le h.writes.flush_le)).mpr id }

/-- The bytes below `ack_pos` were acknowledged. -/
theorem Good.acked (h : Good A ps s) {b : ℕ} (hb : b < s.ackPos) : A b := by
  rcases h.covered b (hb.trans_le h.writes.ack_le) with ha | ⟨r, hr, h1, -⟩
  · exact ha
  · have := h.writes.ack_le_start hr
    omega

variable {w w' : Callbacks}

/-- A context is passed to `flush`. -/
theorem Inv.register (h : Inv w) : Inv w.register ∧ Prompt w w.register := by
  unfold Callbacks.register
  have hperm : ∀ l : List ℕ, l.Perm (range w.issued) → (l ++ [w.issued]).Perm (range (w.issued + 1)) :=
    fun l hl => by
      rw [range_succ]
      exact hl.append_right _
  by_cases heq : w.journal.writePos = w.journal.ackPos
  · simp only [heq, if_true]
    refine ⟨⟨h.good, h.reads, ?_⟩, fun x hx hn b hb => ?_⟩
    · refine List.Perm.trans ?_ (hperm _ h.once)
      simp only [map_append, map_cons, map_nil, append_assoc]
      exact perm_append_comm.append_left _
    · have hx' := (mem_append.mp hx).resolve_left hn
      rw [mem_singleton.mp hx'] at hb
      exact h.good.acked hb
  · simp only [heq, if_false]
    have hle : w.journal.ackPos ≤ w.journal.writePos := h.good.writes.ack_le.trans h.good.writes.flush_le
    refine ⟨⟨{ h.good with waiting := ?_ }, h.reads, ?_⟩, fun x hx hn => absurd hx hn⟩
    · intro p hp
      rw [map_append, mem_append] at hp
      rcases hp with hp | hp
      · exact h.good.waiting p hp
      · rw [mem_singleton.mp hp]
        simp only
        omega
    · refine List.Perm.trans (.of_eq ?_) (hperm _ h.once)
      simp [append_assoc]

/-- **A write is acknowledged.** -/
theorem Inv.finishFlush (h : Inv w) {p : Piece} (hp : p ∈ w.journal.pendingFlush) (hstart : p.start = start)
    (hb : w.journal.retries = [] ∨ Behind w.journal) (hf : Journaler.finishFlush c start w.journal = some s') :
    let done := (w.journal.pendingFlush.filter (·.start = start)).map fun p => (p.start, p.bytes.length)
    let w' := { w with journal := s', acked := cutTo s'.writePos (w.acked ++ done) }.kick (ackAfter w.journal start)
    Inv w' ∧ Prompt w w' := by
  intro done w'
  have hmem : (p.start, p.bytes.length) ∈ ranges w.journal := mem_map_of_mem hp
  have hge := h.good.writes.ack_le_start hmem
  have hlt := h.good.writes.pieces _ hmem
  rw [hstart] at hge hlt
  obtain ⟨hm, hr, hw, -⟩ := finishFlush_moves h.good.writes h.reads (by omega) hb hge hf
  -- the state before the waiters are kicked
  have hacked : Good (fun b => ∃ r ∈ w.acked ++ done, r.1 ≤ b ∧ b < r.1 + r.2) (w'.waitforFlush.map (·.1))
      (ackedAt start w.journal) := by
    refine h.good.ackedAt (fun b ⟨r, hr, hb⟩ => ⟨r, mem_append_left _ hr, hb⟩) (fun r hr hs b h1 h2 => ?_)
      fun q hq => ?_
    · obtain ⟨q, hq, rfl⟩ := List.mem_map.mp hr
      refine ⟨_, mem_append_right _ (mem_map_of_mem (mem_filter.mpr ⟨hq, ?_⟩)), h1, h2⟩
      simpa using hs
    · obtain ⟨x, hx, rfl⟩ := List.mem_map.mp hq
      obtain ⟨hx, hlt⟩ := mem_filter.mp hx
      exact ⟨mem_map_of_mem hx, by simpa using hlt⟩
  have hgood := (hacked.moves hm).cutTo
  refine ⟨⟨hgood, hr, ?_⟩, fun x hx hn b hb => ?_⟩
  · refine List.Perm.trans ?_ h.once
    simp only [w', Callbacks.kick, append_assoc, map_append]
    refine List.Perm.append_left _ ?_
    rw [← map_append]
    refine List.Perm.map _ ?_
    have hneg : w.waitforFlush.filter (fun x => decide (ackAfter w.journal start < x.1)) =
        w.waitforFlush.filter fun x => !decide (x.1 ≤ ackAfter w.journal start) :=
      filter_congr fun x _ => by simp only [← decide_not, not_le]
    rw [hneg]
    exact filter_append_perm _ _
  · -- what is finished lies below the new `ack_pos`
    have hx' := (mem_append.mp hx).resolve_left hn
    obtain ⟨hx', hle⟩ := mem_filter.mp hx'
    have hle : x.1 ≤ ackAfter w.journal start := by simpa using hle
    have hbelow : b < s'.writePos := by
      have := (h.good.waiting x.1 (mem_map_of_mem hx')).2
      omega
    have hb' : b < (ackedAt start w.journal).ackPos := hb.trans_le hle
    exact (mem_cutTo hbelow).mpr (hacked.acked hb')

theorem opened_inv (hbuf : s.writeBuf = []) (hpend : s.pendingFlush = []) (hflush : s.flushPos = s.writePos)
    (hack : s.ackPos = s.writePos) (hr : Reads s) : Inv (opened s) := by
  have hranges : ranges s = [] := by simp [ranges, hpend]
  refine ⟨⟨⟨?_, ?_, ?_, ?_, ?_⟩, fun b hb => .inl ?_, by simp [opened, Waiting]⟩, hr, by simp [opened]⟩
  · simp [opened, hbuf, hflush]
  · simp [opened, hbuf]
  · simp [opened, hranges, hack, hflush]
  · simp [opened, hranges]
  · simp [opened, hranges]
  · have hb' : b < s.writePos := by rw [← hflush]; exact hb
    exact ⟨(0, s.writePos), mem_singleton_self _, Nat.zero_le _, by omega⟩

/-- **One step keeps the invariant**, and finishes contexts in time. -/
theorem step_inv (h : Inv w) (hok : Orderly c w k) (hs : step c w k = some w') :
    Inv w' ∧ Prompt w w' := by
  obtain ⟨s', hj, hs⟩ := map_eq_some_iff.mp hs
  have hnone : ∀ u : Callbacks, u.finished = w.finished → Prompt w u := fun u hu x hx hn =>
    absurd (hu ▸ hx) hn
  -- a call without acknowledgements
  have hcall : (∀ start, k.act ≠ .finishFlush start) → (∀ part, k.act ≠ .restart part) →
      Inv { w with journal := s' } ∧ Inv { w with journal := s', acked := cutTo s'.writePos w.acked } := by
    intro h1 h2
    obtain ⟨hm, hr⟩ := step_moves h.good.writes h.reads hok hj h1 h2
    have hgood := h.good.moves hm
    exact ⟨⟨hgood, hr, h.once⟩, ⟨hgood.cutTo, hr, h.once⟩⟩
  have hplain : (∀ start, k.act ≠ .finishFlush start) → (∀ part, k.act ≠ .restart part) →
      (if s'.ok = false then { w with journal := s' } else
        let u := { w with journal := s', acked := cutTo s'.writePos w.acked }
        if k.onsync then u.register else u) = w' → Inv w' ∧ Prompt w w' := by
    intro h1 h2 hw
    obtain ⟨hi1, hi2⟩ := hcall h1 h2
    subst hw
    by_cases hdead : s'.ok = false
    · rw [if_pos hdead]
      exact ⟨hi1, hnone _ rfl⟩
    · rw [if_neg hdead]
      by_cases hsync : k.onsync = true
      · rw [if_pos hsync]
        obtain ⟨hreg, hprompt⟩ := hi2.register
        exact ⟨hreg, hprompt⟩
      · rw [if_neg hsync]
        exact ⟨hi2, hnone _ rfl⟩
  -- an assertion has failed
  have hdead : Inv { w with journal := { w.journal with ok := false } } :=
    ⟨h.good.same ⟨rfl, rfl, rfl, rfl, rfl⟩, ⟨h.reads.place, h.reads.le⟩, h.once⟩
  cases ha : k.act with
  | finishFlush start =>
    have hb : w.journal.retries = [] ∨ Behind w.journal := by
      unfold Orderly at hok
      rw [ha] at hok
      exact hok
    rw [ha] at hj hs
    obtain ⟨hal, hj⟩ := ite_none_left_eq_some.mp hj
    obtain ⟨hany, hj⟩ := ite_none_right_eq_some.mp hj
    obtain ⟨p, hp, hps⟩ := any_eq_true.mp hany
    have hstart : p.start = start := (of_decide_eq_true hps).1
    cases hf : finishFlush c start w.journal with
    | none =>
      rw [hf] at hj
      cases hj
      subst hs
      exact ⟨hdead, hnone _ rfl⟩
    | some t =>
      rw [hf] at hj
      cases hj
      have hmem : (p.start, p.bytes.length) ∈ ranges w.journal := mem_map_of_mem hp
      have hge := h.good.writes.ack_le_start hmem
      have hlt := h.good.writes.pieces _ hmem
      rw [hstart] at hge hlt
      obtain ⟨-, -, -, hokt⟩ := finishFlush_moves h.good.writes h.reads (by omega) hb hge hf
      have hlive : ¬ (w.journal.after (some t)).ok = false := by
        rw [show w.journal.after (some t) = t from rfl, hokt]
        exact hal
      rw [if_neg hlive] at hs
      subst hs
      exact h.finishFlush hp hstart hb hf
  | restart part =>
    rw [ha] at hj hs
    obtain ⟨hal, ⟨⟩⟩ := ite_none_left_eq_some.mp hj
    cases hf : recover c (crashFile part w.journal) w.journal.head with
    | none =>
      rw [hf] at hs
      subst hs
      exact ⟨hdead, hnone _ rfl⟩
    | some t =>
      rw [hf] at hs
      obtain ⟨-, ⟨⟩⟩ := ite_none_right_eq_some.mp hf
      rw [if_neg (by simp [State.after])] at hs
      subst hs
      exact ⟨opened_inv rfl rfl rfl rfl ⟨rfl, le_rfl⟩, fun x hx => by simp [opened] at hx⟩
  | _ => exact hplain (by simp [ha]) (by simp [ha]) (by simpa [ha] using hs)

theorem init_inv : Inv (init c) := opened_inv rfl rfl rfl rfl ⟨rfl, le_rfl⟩

theorem Inv.ordered (h : Inv w) : Ordered w := by
  have hmem : ∀ p ∈ w.journal.pendingFlush, (p.start, p.bytes.length) ∈ ranges w.journal := fun p hp =>
    mem_map_of_mem hp
  have hge : ∀ p ∈ w.journal.pendingFlush, w.journal.ackPos ≤ p.start := fun p hp =>
    h.good.writes.ack_le_start (hmem p hp)
  have hack := h.good.writes.ack
  refine ⟨fun hnil => ?_, fun hne => ?_, hge, ⟨h.good.writes.ack_le, h.good.writes.flush_le⟩, h.once, fun x hx => ?_,
    fun p hp => ⟨hge p hp, ?_⟩⟩
  · rw [hack]
    simp [ranges, hnil]
  · obtain ⟨p, ps, hp⟩ := exists_cons_of_ne_nil hne
    refine ⟨p, by rw [hp]; exact mem_cons_self, ?_⟩
    rw [hack]
    simp [ranges, hp]
  · exact (h.good.waiting x.1 (mem_map_of_mem hx)).1
  · have := h.good.writes.pieces _ (hmem p hp)
    omega

/-- **The callbacks of flushes are ordered.** In every run in which the write buffer stays
below 4 GiB and the reader reads only where it is behind, the positions and the
callbacks are in order, and what a step finishes has every byte below it
acknowledged. -/
theorem callbacks_ordered (c : Config) {w : Callbacks} (h : Run.Reach (step c) (Orderly c) (init c) w) :
    Ordered w ∧ ∀ k w', Orderly c w k → step c w k = some w' → Prompt w w' := by
  have hi : Inv w := h.inv Inv init_inv fun _ _ _ hi hok hs => (step_inv hi hok hs).1
  exact ⟨hi.ordered, fun k w' hok hs => (step_inv hi hok hs).2⟩

/-- A journal that starts at byte 8 and flushes at once. -/
def eager : Config where
  allowSplitEntries := true
  cache := false
  batchMax := 0
  stripeUnit := 64
  period := 8
  fetchLen := 100
  prefetchFrom := 0

/-- Two entries are written, and the second write is acknowledged first. -/
theorem callbacks_ordered_two : ∃ w, Run.Reach (step eager) (Orderly eager) (init eager) w ∧
    w.finished = [(13, 0), (19, 1)] ∧ Ordered w ∧
    ∀ k w', Orderly eager w k → step eager w k = some w' → Prompt w w' := by
  have hrun : ((Run.exec (step eager) (Orderly eager)
      [.plain (.append [1] true false), .plain (.append [2, 3] true false), .plain (.stored 8), .plain (.stored 13),
        .plain (.finishFlush 13), .plain (.finishFlush 8)] (init eager)).map
        (·.finished)) = some [(13, 0), (19, 1)] := by decide +kernel
  obtain ⟨w, hw, hf⟩ := map_eq_some_iff.mp hrun
  have hr := Run.reach_of_exec hw
  exact ⟨w, hr, hf, callbacks_ordered eager hr⟩

/-- A restart finds five bytes of an entry and cuts them off. Five bytes are written
again, and before they are acknowledged `is_readable` cuts them off, too. -/
theorem callbacks_disordered : ∃ w, Run.Reach (step eager) Run.anyAct (init eager) w ∧ ¬ Ordered w := by
  have hrun : ((Run.exec (step eager) Run.anyAct
      [.plain (.append [1, 2, 3] true false), .plain (.restart fun _ => 5), .plain .isReadable, .plain .finishRead,
        .plain (.append [4] true false), .plain .isReadable] (init eager)).map
        fun w => (w.journal.pendingFlush.map (·.start), w.journal.flushPos)) = some ([8], 8) := by decide +kernel
  obtain ⟨w, hw, hf⟩ := map_eq_some_iff.mp hrun
  refine ⟨w, Run.reach_of_exec hw, fun ho => ?_⟩
  simp only [Prod.mk.injEq] at hf
  obtain ⟨p, hp, hs⟩ : ∃ p ∈ w.journal.pendingFlush, p.start = 8 := List.mem_map.mp (by rw [hf.1]; simp)
  have := (ho.asserts p hp).2
  omega

end FlushOrder
end Osdc
end Ceph
